import Mathlib.Data.List.ReduceOption
import Glidix.Lib.Runs
import Glidix.Net.TcpSteps

/-!
# Acknowledged bytes are stored

An established socket receives segments from any peer.  The number that it expects next counts the
data bytes that it stored and the FIN, as long as no FIN is accepted from a segment that carries
data: the branch for `TCP_FIN` steps over one number, which is that of the first data byte, and
drops the data.
-/

namespace Glidix.Net

open Glidix.Thread TCPSocket

/-- The units that a segment has a number for, in order: its data bytes, and the FIN. -/
def TCPSegment.units (seg : TCPSegment) : List (Option UInt8) :=
  seg.payload.map some ++ if seg.has TCP_FIN then [none] else []

/-- A socket since it was established: what it expected then, what it had stored until then, and the
units whose numbers it has stepped over since. -/
structure AckState where
  sock : TCPSocket
  base : UInt32
  before : List UInt8
  passed : List (Option UInt8)

/-- A step of the socket.  The units that it steps over are those of the segment in hand. -/
def AckState.apply (s : AckState) (op : SockOp) : Option AckState :=
  (s.sock.step op).map fun (k, _) =>
    { s with
      sock := k
      passed := s.passed ++
        match s.sock.packet with
        | some seg => seg.units.take (k.nextAckNo - s.sock.nextAckNo).toNat
        | none => [] }

/-- The connection is there, and the handler thread knows. -/
structure Established (k : TCPSocket) : Prop where
  live : k.state ≠ .closed ∧ k.state ≠ .connecting
  done : k.connectDone = true
  thread : ∀ wasFin, k.thread ≠ .connecting wasFin
  connected : k.semConnected.count ≠ 0

/-- Segments are no longer than the IP layer makes them. -/
def SockOp.Sized : SockOp → Prop
  | .packetAck seg => seg.size < 2 ^ 32
  | _ => True

instance : DecidablePred SockOp.Sized
  | .packetAck seg => inferInstanceAs (Decidable (seg.size < 2 ^ 32))
  | .connect _ | .accept _ _ | .sendto _ _ _ | .sendWait _ _ | .sendCopy _ | .sendPost _
  | .recvfrom _ _ | .recvWait _ _ | .recvCopy _ | .shutdown _ _ | .close | .packetRest | .thread _ =>
    isTrue trivial

/-- Runs of a socket from the time it is established, with segments from any peer. -/
def ackSystem : System AckState SockOp where
  init s := Established s.sock ∧ (∀ seg, s.sock.packet = some seg → seg.size < 2 ^ 32) ∧
    s.sock.semRecvFetch.terminated = false ∧ s.base = s.sock.nextAckNo ∧
    s.before = s.sock.received ∧ s.passed = []
  step s op t := op.Sized ∧ s.apply op = some t

/-- A FIN was accepted: nothing else ends the receiving side. -/
def FinAccepted (k : TCPSocket) : Prop := k.semRecvFetch.terminated = true

instance (k : TCPSocket) : Decidable (FinAccepted k) := inferInstanceAs (Decidable (_ = true))

/-- The number that is expected next counts the bytes stored since, and the FIN if it was accepted;
the data bytes stepped over are those that were stored, and the FIN was stepped over in its
place. -/
structure Acknowledges (s : AckState) : Prop where
  count : s.sock.nextAckNo = s.base +
    .ofNat (s.sock.received.length - s.before.length + if FinAccepted s.sock then 1 else 0)
  stored : s.sock.received = s.before ++ s.passed.reduceOption
  fin : s.passed.count none = if FinAccepted s.sock then 1 else 0

/-- If the step accepts a FIN, its segment carries no data. -/
def FinEmpty (s : AckState) : SockOp → Prop
  | .packetRest => ∀ seg, s.sock.packet = some seg → s.sock.state ≠ .terminated →
      seg.has TCP_SYN = false → seg.has TCP_FIN = true → seg.has TCP_RST = false →
        seg.seqno = s.sock.nextAckNo → seg.payload = []
  | _ => True

/-! ## Established sockets -/

section Established

variable {k k' : TCPSocket} {segs : List TCPSegment}

theorem Established.congr (h : Established k) (he : k'.handshake = k.handshake) :
    Established k' := by
  simp only [handshake, Handshake.mk.injEq] at he
  obtain ⟨-, hstate, hconn, hdone, hthread, -⟩ := he
  exact ⟨hstate ▸ h.live, hdone ▸ h.done, hthread ▸ h.thread, hconn ▸ h.connected⟩

theorem Established.fail {error : Int32} {thread : TcpThread} (h : Established k)
    (hthread : ∀ wasFin, thread ≠ .connecting wasFin) (hf : k.fail error thread = some k') :
    Established k' := by
  unfold TCPSocket.fail at hf
  rw [if_neg h.live.2, Option.map_some, Option.some.injEq] at hf
  subst hf
  exact ⟨⟨by simp, by simp⟩, h.done, hthread, h.connected⟩

theorem Established.drainAckOut (h : Established k) : Established k.drainAckOut :=
  h.congr drainAckOut_frame.2.1

theorem Established.tcpThread {env : ThreadEnv} (h : Established k)
    (ht : k.tcpThread env = some (k', segs)) : Established k' := by
  unfold TCPSocket.tcpThread at ht
  split at ht
  · cases ht
  · cases ht
  · cases ht
  · -- sending
    split_ifs at ht
    · obtain ⟨k₁, hf, he⟩ := Option.map_eq_some_iff.1 ht
      cases he
      exact h.fail (by simp) hf
    · obtain ⟨k₁, hf, he⟩ := Option.map_eq_some_iff.1 ht
      cases he
      exact h.fail (by simp) hf
    · cases ht
      exact ⟨h.live, h.done, by simp, h.connected⟩
  · -- polling
    split_ifs at ht
    · cases ht
      exact ⟨by simp, h.done, by simp, h.connected⟩
    · cases ht
      rw [if_pos (by exact h.done)]
      exact ⟨h.live, h.done, fun b => by unfold afterSend; split <;> simp, h.connected⟩
    · cases ht
      exact ⟨h.drainAckOut.live, h.drainAckOut.done, by simp, h.drainAckOut.connected⟩
  · -- connecting
    next wasFin hthread => exact absurd hthread (h.thread wasFin)
  · -- idle
    split_ifs at ht
    · obtain ⟨⟨count, units⟩, -, he⟩ := Option.map_eq_some_iff.1 ht
      cases he
      exact ⟨h.drainAckOut.live, h.drainAckOut.done, by simp, h.drainAckOut.connected⟩
    · cases ht
      split_ifs
      · exact ⟨by simp, h.drainAckOut.done, by simp, h.drainAckOut.connected⟩
      · exact h.drainAckOut
    · cases ht
      exact ⟨by simp, h.done, by simp, h.connected⟩
  · -- fetched
    obtain ⟨k₁, hout, he⟩ := Option.map_eq_some_iff.1 ht
    cases he
    obtain ⟨units, -, rfl⟩ := Option.map_eq_some_iff.1 hout
    exact ⟨h.live, h.done, by simp, h.connected⟩
  · -- closing
    simp only at ht
    split_ifs at ht
    · cases ht
      exact ⟨h.live, h.done, by simp, h.connected⟩
    · cases ht
      exact Established.drainAckOut ⟨h.live, h.done, by simp, h.connected⟩
    · cases ht
      exact ⟨h.live, h.done, by simp, h.connected⟩
  · -- draining
    obtain ⟨⟨count, units⟩, -, he⟩ := Option.map_eq_some_iff.1 ht
    cases he
    exact ⟨h.live, h.done, fun b => by dsimp only; split <;> simp, h.connected⟩

theorem Established.packetAck {seg : TCPSegment} (h : Established k)
    (hp : k.packetAck seg = some k') : Established k' := by
  unfold TCPSocket.packetAck at hp
  split_ifs at hp
  · obtain ⟨units, -, rfl⟩ := Option.map_eq_some_iff.1 hp
    exact ⟨h.live, h.done, h.thread, h.connected⟩
  · cases hp
    exact ⟨h.live, h.done, h.thread, h.connected⟩

theorem Established.ackOut (h : Established k) (hp : k.ackOut = some k') : Established k' := by
  obtain ⟨units, -, rfl⟩ := Option.map_eq_some_iff.1 hp
  exact ⟨h.live, h.done, h.thread, h.connected⟩

theorem Established.packetRest (h : Established k) (hp : k.packetRest = some k') :
    Established k' := by
  unfold TCPSocket.packetRest at hp
  split at hp
  · cases hp
  · next seg hseg =>
    obtain ⟨k₁, hrst, hp⟩ := Option.bind_eq_some_iff.1 hp
    have h₁ : Established k₁ := by
      unfold packetRst at hrst
      split_ifs at hrst
      · obtain ⟨units, -, rfl⟩ := Option.map_eq_some_iff.1 hrst
        exact ⟨by simp, h.done, h.thread, h.connected⟩
      · cases hrst
        exact ⟨h.live, h.done, h.thread, h.connected⟩
    split_ifs at hp
    · exact h₁.ackOut hp
    · unfold packetSyn at hp
      rw [if_neg h₁.connected] at hp
      exact h₁.ackOut hp
    · unfold packetFin at hp
      split_ifs at hp
      · obtain ⟨units, -, hp⟩ := Option.bind_eq_some_iff.1 hp
        exact Established.ackOut (by exact ⟨h₁.live, h₁.done, h₁.thread, h₁.connected⟩) hp
      · cases hp
        exact h₁
    · unfold packetData at hp
      split_ifs at hp
      · cases hp
        exact h₁
      · obtain ⟨units, -, hp⟩ := Option.bind_eq_some_iff.1 hp
        exact Established.ackOut (by exact ⟨h₁.live, h₁.done, h₁.thread, h₁.connected⟩) hp
      · exact h₁.ackOut hp
    · cases hp
      exact h₁

end Established

/-! ## Stepping over units -/

section Units

variable {k k' : TCPSocket} {segs : List TCPSegment} {seg : TCPSegment}

/-- The length of the payload, where its size did not wrap around. -/
theorem payloadSize_eq (hsize : seg.size < 2 ^ 32) (hle : seg.payloadSize ≤ seg.payload.length) :
    seg.payloadSize = seg.payload.length := by
  have hlen : seg.payload.length = seg.size - seg.headerSize := List.length_drop
  have hdef : seg.payloadSize = (seg.size + 2 ^ 64 - seg.headerSize) % 2 ^ 64 := rfl
  have hhead : seg.headerSize < 2 ^ 10 := by
    have := (seg.dataOffsetNS >>> 4).toNat_lt
    unfold TCPSegment.headerSize
    omega
  omega

theorem payload_eq_nil_iff : seg.payload = [] ↔ seg.size ≤ seg.headerSize := List.drop_eq_nil_iff

theorem add_sub_self (a b : UInt32) : a + b - a = b := by
  rw [UInt32.add_comm, UInt32.add_sub_cancel]

/-- The receiving side after a step other than one for a segment or a call of `tcpsock_recvfrom`. -/
theorem recvSide_of_frame (h : k'.recvSide = k.recvSide) :
    k'.received = k.received ∧ k'.semRecvFetch = k.semRecvFetch := by
  simp only [recvSide, RecvSide.mk.injEq] at h
  exact ⟨h.2.2.2.2.2.2.1, h.2.2.1⟩

theorem waitGen_terminated {u u' : SemUnits} {n r : Int32} {giveUp : Option GiveUp}
    (h : u.waitGen n giveUp = some (r, u')) : u'.terminated = u.terminated := by
  unfold SemUnits.waitGen SemUnits.acquire at h
  split_ifs at h
  · cases h
    rfl
  · cases h
    rfl
  · cases h
    rfl
  all_goals
    cases giveUp with
    | some e =>
      cases h
      rfl
    | none => cases h <;> rfl

theorem terminate_terminated {u u' : SemUnits} (h : u.terminate = some u') :
    u.terminated = false ∧ u'.terminated = true := by
  unfold SemUnits.terminate at h
  by_cases hterm : u.terminated = true
  · rw [if_pos hterm] at h
    cases h
  · rw [if_neg hterm] at h
    exact ⟨Bool.eq_false_of_not_eq_true hterm, Option.some.inj h ▸ rfl⟩

theorem signal_terminated {u u' : SemUnits} {n : Int32} (h : u.signal n = some u') :
    u'.terminated = u.terminated := by
  unfold SemUnits.signal at h
  split_ifs at h <;> cases h <;> rfl

theorem recvWait_received {i : ℕ} {giveUp : Option GiveUp} (h : k.recvWait i giveUp = some k') :
    k'.received = k.received ∧ k'.semRecvFetch.terminated = k.semRecvFetch.terminated := by
  unfold recvWait at h
  split at h
  · obtain ⟨⟨size, units⟩, hwait, rfl⟩ := Option.map_eq_some_iff.1 h
    have hterm := waitGen_terminated hwait
    simp only
    split_ifs <;> exact ⟨rfl, hterm⟩
  · cases h

/-- A step that is not one for a segment in hand leaves what was counted alone. -/
theorem step_counted (hk : Established k) {op : SockOp} (hop : op ≠ .packetRest)
    (h : k.step op = some (k', segs)) :
    k'.nextAckNo = k.nextAckNo ∧ k'.received = k.received ∧
      k'.semRecvFetch.terminated = k.semRecvFetch.terminated ∧ Established k' := by
  have hframe : k'.recvSide = k.recvSide ∧ k'.handshake = k.handshake →
      k'.nextAckNo = k.nextAckNo ∧ k'.received = k.received ∧
        k'.semRecvFetch.terminated = k.semRecvFetch.terminated ∧ Established k' := by
    rintro ⟨hrecv, hshake⟩
    obtain ⟨hreceived, hunits⟩ := recvSide_of_frame hrecv
    exact ⟨congrArg Handshake.nextAckNo hshake, hreceived, by rw [hunits], hk.congr hshake⟩
  cases op with
  | connect random =>
    simp only [step, TCPSocket.connect, ne_eq, hk.live.1, not_false_eq_true, if_true,
      Option.map_none] at h
    cases h
  | accept random pendAckno =>
    simp only [step, TCPSocket.accept, ne_eq, hk.live.1, not_false_eq_true, if_true] at h
    cases h
  | sendto flags buffer giveUp =>
    obtain ⟨hcall, -⟩ := of_map_nil h
    exact hframe (sendto_frame hcall)
  | sendWait i giveUp =>
    obtain ⟨hcall, -⟩ := of_map_nil h
    exact hframe (sendWait_frame hcall)
  | sendCopy i =>
    obtain ⟨hcall, -⟩ := of_map_nil h
    exact hframe (sendCopy_frame hcall)
  | sendPost i =>
    obtain ⟨hcall, -⟩ := of_map_nil h
    exact hframe (sendPost_frame hcall)
  | recvfrom flags len =>
    cases h
    have hsame : (k.recvfrom flags len).received = k.received ∧
        (k.recvfrom flags len).semRecvFetch = k.semRecvFetch := by
      unfold TCPSocket.recvfrom
      split_ifs <;> exact ⟨rfl, rfl⟩
    have hshake := (recvfrom_frame (k := k) flags len).2
    exact ⟨congrArg Handshake.nextAckNo hshake, hsame.1, by rw [hsame.2], hk.congr hshake⟩
  | recvWait i giveUp =>
    obtain ⟨hcall, -⟩ := of_map_nil h
    obtain ⟨hreceived, hterm⟩ := recvWait_received hcall
    have hshake := (recvWait_frame hcall).2
    exact ⟨congrArg Handshake.nextAckNo hshake, hreceived, hterm, hk.congr hshake⟩
  | recvCopy i =>
    obtain ⟨hcall, -⟩ := of_map_nil h
    have hshake := (recvCopy_frame hcall).2
    unfold TCPSocket.recvCopy at hcall
    split at hcall
    · cases hcall
      exact ⟨rfl, rfl, rfl, hk.congr hshake⟩
    · cases hcall
  | shutdown rd wr =>
    obtain ⟨hcall, -⟩ := of_map_nil h
    exact hframe (shutdown_frame hcall)
  | close =>
    obtain ⟨hcall, -⟩ := of_map_nil h
    exact hframe (close_frame hcall)
  | packetAck seg =>
    obtain ⟨hcall, -⟩ := of_map_nil h
    have hest := hk.packetAck hcall
    unfold TCPSocket.packetAck at hcall
    split_ifs at hcall
    · obtain ⟨units, -, rfl⟩ := Option.map_eq_some_iff.1 hcall
      exact ⟨rfl, rfl, rfl, hest⟩
    · cases hcall
      exact ⟨rfl, rfl, rfl, hest⟩
  | packetRest => exact absurd rfl hop
  | thread env =>
    obtain ⟨hrecv, hack, -⟩ := tcpThread_recvSide h
    obtain ⟨hreceived, hunits⟩ := recvSide_of_frame hrecv
    exact ⟨hack, hreceived, by rw [hunits], hk.tcpThread h⟩

end Units

/-! ## Runs -/

section Runs

variable {s t : AckState}

/-- What holds in every state of a run whose FINs are empty. -/
structure AckInv (s : AckState) : Prop where
  established : Established s.sock
  sized : ∀ seg, s.sock.packet = some seg → seg.size < 2 ^ 32
  acknowledges : Acknowledges s

/-- A step that does not change what is expected next steps over nothing. -/
theorem Acknowledges.keep (h : Acknowledges s) {k : TCPSocket} {passed : List (Option UInt8)}
    (hack : k.nextAckNo = s.sock.nextAckNo) (hreceived : k.received = s.sock.received)
    (hterm : k.semRecvFetch.terminated = s.sock.semRecvFetch.terminated)
    (hpassed : passed = s.passed) : Acknowledges { s with sock := k, passed := passed } := by
  have hfin : FinAccepted k ↔ FinAccepted s.sock := by rw [FinAccepted, FinAccepted, hterm]
  subst hpassed
  refine ⟨?_, ?_, ?_⟩
  · simp only [hack, hreceived, hfin]
    exact h.count
  · simp only [hreceived]
    exact h.stored
  · simp only [hfin]
    exact h.fin

/-- The segment in hand is dealt with. -/
theorem Acknowledges.packet {k : TCPSocket} {seg : TCPSegment} (h : Acknowledges s)
    (hseg : s.sock.packet = some seg) (hsize : seg.size < 2 ^ 32)
    (hest : Established s.sock) (hfin : FinEmpty s .packetRest)
    (he : PacketEffect s.sock seg k) :
    Acknowledges { s with
      sock := k
      passed := s.passed ++ seg.units.take (k.nextAckNo - s.sock.nextAckNo).toNat } := by
  have hlen : s.sock.received.length = s.before.length + s.passed.reduceOption.length := by
    rw [h.stored, List.length_append]
  cases he with
  | nothing hrecv hack =>
    obtain ⟨hreceived, hunits⟩ := recvSide_of_frame hrecv
    exact h.keep hack hreceived (by rw [hunits]) (by simp [hack])
  | syn hfirst hlive hsyn hrecv hack hconn => exact absurd hfirst hest.connected
  | fin hlive hsyn hf hrst hseq hunits hrecv hack =>
    -- the FIN is the first unit of a segment without data
    have hempty := hfin seg hseg hlive hsyn hf hrst hseq
    have hpassed : seg.units.take (k.nextAckNo - s.sock.nextAckNo).toNat = [none] := by
      rw [hack, add_sub_self]
      simp [TCPSegment.units, hempty, hf]
    simp only [recvSide, RecvSide.mk.injEq] at hrecv
    obtain ⟨-, -, hfetch, -, -, -, hreceived, -⟩ := hrecv
    obtain ⟨hterm, hterm'⟩ := terminate_terminated hunits
    have hbefore : ¬ FinAccepted s.sock := by
      rw [FinAccepted, hterm]
      exact Bool.false_ne_true
    have hafter : FinAccepted k := by
      rw [FinAccepted, hfetch]
      exact hterm'
    have hcount := h.count
    have hone := h.fin
    rw [if_neg hbefore] at hcount hone
    rw [hpassed]
    refine ⟨?_, ?_, ?_⟩
    · simp only [hack, hcount, hreceived, if_pos hafter, Nat.add_zero, UInt32.ofNat_add]
      exact UInt32.add_assoc _ _ _
    · simp only [hreceived, List.reduceOption_append, List.reduceOption_cons_of_none,
        List.reduceOption_nil, List.append_nil]
      exact h.stored
    · simp only [if_pos hafter, List.count_append, hone]
      rfl
  | data hsyn hf hpush hseq hroom hsz hunits hrecv hack =>
    have hsize' := payloadSize_eq hsize hsz
    have hlt : seg.payload.length < 2 ^ 32 := by
      have : seg.payload.length = seg.size - seg.headerSize := List.length_drop
      omega
    have hpassed : seg.units.take (k.nextAckNo - s.sock.nextAckNo).toNat = seg.payload.map some := by
      rw [hack, hsize', add_sub_self, UInt32.toNat_ofNat_of_lt' hlt]
      simp [TCPSegment.units, hf, List.take_of_length_le]
    simp only [recvSide, RecvSide.mk.injEq] at hrecv
    obtain ⟨-, -, hfetch, -, -, -, hreceived, -⟩ := hrecv
    have hsame : FinAccepted k ↔ FinAccepted s.sock := by
      rw [FinAccepted, FinAccepted, hfetch, signal_terminated hunits]
    rw [hpassed]
    refine ⟨?_, ?_, ?_⟩
    · simp only [hack, h.count, hreceived, hsame, hsize', List.length_append]
      rw [UInt32.add_assoc, ← UInt32.ofNat_add]
      congr 2
      omega
    · simp only [hreceived, h.stored, List.reduceOption_append, List.append_assoc]
      rw [List.reduceOption, List.filterMap_map]
      simp
    · simp only [hsame, List.count_append, h.fin]
      simp [List.count_eq_zero]

theorem AckInv.step (h : AckInv s) {op : SockOp} (hfin : FinEmpty s op) (hsized : op.Sized)
    (ht : s.apply op = some t) : AckInv t := by
  obtain ⟨⟨k, segs⟩, hstep, rfl⟩ := Option.map_eq_some_iff.1 ht
  by_cases hop : op = .packetRest
  · subst hop
    obtain ⟨hrest, -⟩ := of_map_nil hstep
    obtain ⟨seg, hseg, heffect⟩ := packetRest_effect hrest
    simp only [hseg]
    have hnone := packetRest_packet hrest
    refine ⟨h.established.packetRest hrest, fun seg' hseg' => ?_,
      h.acknowledges.packet hseg (h.sized seg hseg) h.established hfin heffect⟩
    cases hnone.symm.trans hseg'
  · obtain ⟨hack, hreceived, hterm, hest⟩ := step_counted h.established hop hstep
    refine ⟨hest, fun seg' hseg' => ?_, h.acknowledges.keep hack hreceived hterm ?_⟩
    · rcases step_packet hop hstep with hsame | ⟨seg, rfl, hnew⟩
      · exact h.sized seg' (hsame ▸ hseg')
      · obtain rfl : seg = seg' := Option.some.inj (hnew.symm.trans hseg')
        exact hsized
    · split <;> simp [hack]

/-- In every state of a run in which no FIN that is accepted carries data, the number that is
expected next counts what was stored. -/
theorem tcpsock_acknowledges_stored (hs : ackSystem.ReachesBy FinEmpty s) : Acknowledges s := by
  refine (hs.invariant (I := AckInv) ?_ ?_).acknowledges
  · rintro s ⟨hest, hsized, hterm, hbase, hbefore, hpassed⟩
    have hfin : ¬ FinAccepted s.sock := by
      rw [FinAccepted, hterm]
      exact Bool.false_ne_true
    refine ⟨hest, hsized, ?_, ?_, ?_⟩
    · rw [hbase, hbefore, if_neg hfin, Nat.sub_self]
      simp
    · rw [hbefore, hpassed]
      simp
    · rw [hpassed, if_neg hfin]
      rfl
  · rintro s op t h hfin ⟨hsized, ht⟩
    exact h.step hfin hsized ht

end Runs

/-! ## Two runs -/

/-- The step of a run whose segments have a size, if it is one. -/
def AckState.applySized (s : AckState) (op : SockOp) : Option AckState :=
  if op.Sized then s.apply op else none

/-- The same, where the segment in hand has not both a FIN and data. -/
def AckState.applyEmpty (s : AckState) (op : SockOp) : Option AckState :=
  if s.sock.packet.all fun seg => !seg.has TCP_FIN || seg.payload.isEmpty then s.applySized op
  else none

theorem applySized_step {s t : AckState} {op : SockOp} (h : s.applySized op = some t) :
    ackSystem.step s op t := by
  unfold AckState.applySized at h
  split_ifs at h with hsized
  exact ⟨hsized, h⟩

theorem applyEmpty_step {s t : AckState} {op : SockOp} (h : s.applyEmpty op = some t) :
    FinEmpty s op ∧ ackSystem.step s op t := by
  unfold AckState.applyEmpty at h
  split_ifs at h with hempty
  refine ⟨?_, applySized_step h⟩
  cases op with
  | packetRest =>
    intro seg hseg _ _ hfin _ _
    simpa [hseg, hfin] using hempty
  | _ => trivial

/-- A socket that was just accepted and expects the number 500. -/
def acceptedSocket : Option TCPSocket := (CreateTCPSocket 20480 50000).accept 1000 500

theorem acceptedSocket_init {k : TCPSocket} (h : acceptedSocket = some k) :
    ackSystem.init ⟨k, k.nextAckNo, k.received, []⟩ := by
  unfold acceptedSocket accept at h
  have hclosed : ¬ (CreateTCPSocket 20480 50000).state ≠ .closed := not_not.2 rfl
  rw [if_neg hclosed] at h
  obtain ⟨units, hunits, rfl⟩ := Option.map_eq_some_iff.1 h
  refine ⟨⟨⟨by simp, by simp⟩, rfl, by simp, ?_⟩, ?_, rfl, rfl, rfl, rfl⟩
  · cases hunits
    decide
  · intro seg hseg
    cases hseg

/-- A segment for it. -/
def segmentFor (seqno : UInt32) (flags : UInt8) (data : List UInt8) : TCPSegment :=
  ⟨50000, 20480, seqno, 1000, 0x50, flags, 0xFFFF, 0, 0, data⟩

/-- The state after segments arrived at the accepted socket. -/
def arrived (f : AckState → SockOp → Option AckState) (segs : List TCPSegment) : Option AckState :=
  acceptedSocket.bind fun k =>
    (segs.flatMap fun seg => [.packetAck seg, .packetRest]).foldlM f ⟨k, k.nextAckNo, k.received, []⟩

theorem reachesBy_arrived {f : AckState → SockOp → Option AckState} {c : AckState → SockOp → Prop}
    (hf : ∀ s op t, f s op = some t → c s op ∧ ackSystem.step s op t) {segs : List TCPSegment}
    {s : AckState} (h : arrived f segs = some s) : ackSystem.ReachesBy c s := by
  obtain ⟨k, hk, hfold⟩ := Option.bind_eq_some_iff.1 h
  exact System.ReachesBy.foldlM hf (.init (acceptedSocket_init hk)) hfold

/-- A byte arrives, and then a FIN. -/
theorem tcpsock_acknowledges_stored_byte :
    ∃ s, arrived AckState.applyEmpty [segmentFor 500 24 [65], segmentFor 501 17 []] = some s ∧
      Acknowledges s ∧ s.sock.nextAckNo = 502 ∧ s.passed = [some 65, none] := by
  have hrun : (arrived AckState.applyEmpty [segmentFor 500 24 [65], segmentFor 501 17 []]).map
      (fun s => (s.sock.nextAckNo, s.passed)) = some (502, [some 65, none]) := by decide
  obtain ⟨s, hs, he⟩ := Option.map_eq_some_iff.1 hrun
  obtain ⟨hack, hpassed⟩ := Prod.mk.inj he
  exact ⟨s, hs, tcpsock_acknowledges_stored (reachesBy_arrived (fun _ _ _ => applyEmpty_step) hs),
    hack, hpassed⟩

/-- A FIN with a byte: the number of the byte is stepped over, and the byte is not stored. -/
theorem tcpsock_not_acknowledges_stored :
    ∃ s, ackSystem.Reachable s ∧ s.passed = [some 65] ∧ s.sock.received = [] ∧
      ¬ Acknowledges s := by
  have hrun : (arrived AckState.applySized [segmentFor 500 17 [65]]).map
      (fun s => (s.passed, s.sock.received, s.before)) = some ([some 65], [], []) := by decide
  obtain ⟨s, hs, he⟩ := Option.map_eq_some_iff.1 hrun
  simp only [Prod.mk.injEq] at he
  obtain ⟨hpassed, hreceived, hbefore⟩ := he
  refine ⟨s, reachesBy_arrived (fun _ _ _ h => ⟨trivial, applySized_step h⟩) hs, hpassed, hreceived,
    fun h => ?_⟩
  have hstored := h.stored
  rw [hpassed, hreceived, hbefore] at hstored
  cases hstored

end Glidix.Net
