import Mathlib.Tactic.SplitIfs
import Glidix.Net.TcpSocket

/-!
# What the steps of a TCP socket leave alone

The calls of the application and the handler thread change the receiving side of a socket only in
`tcpsock_recvfrom`, and its sending side only in `tcpsock_sendto`, in the thread and when it is
closed.  Only `tcpsock_packet` changes the number that is expected next.
-/

namespace Glidix.Net

open Glidix.Thread

/-- The fields of the receiving side. -/
structure RecvSide where
  bufRecv : ℕ → UInt8
  cntRecvPut : ℕ
  semRecvFetch : SemUnits
  idxRecvPut : ℕ
  idxRecvFetch : ℕ
  recvs : List RecvCall
  received : List UInt8
  recvResults : List (Except Int32 (List UInt8))

/-- The fields of the sending side, up to the handler thread. -/
structure SendSide where
  bufSend : ℕ → UInt8
  semSendPut : SemUnits
  semSendFetch : SemUnits
  idxSendPut : ℕ
  idxSendFetch : ℕ
  sends : List SendCall
  accepted : List UInt8

/-- The fields that the connection is set up with. -/
structure Handshake where
  nextAckNo : UInt32
  state : TcpState
  semConnected : SemUnits
  connectDone : Bool
  thread : TcpThread
  nextSeqNo : UInt32
  currentOut : TCPSegment
  semAck : SemUnits
  packet : Option TCPSegment

namespace TCPSocket

variable {k k' : TCPSocket} {segs : List TCPSegment} {i n : ℕ} {giveUp : Option GiveUp}

def recvSide (k : TCPSocket) : RecvSide :=
  ⟨k.bufRecv, k.cntRecvPut, k.semRecvFetch, k.idxRecvPut, k.idxRecvFetch, k.recvs, k.received,
    k.recvResults⟩

def sendSide (k : TCPSocket) : SendSide :=
  ⟨k.bufSend, k.semSendPut, k.semSendFetch, k.idxSendPut, k.idxSendFetch, k.sends, k.accepted⟩

def handshake (k : TCPSocket) : Handshake :=
  ⟨k.nextAckNo, k.state, k.semConnected, k.connectDone, k.thread, k.nextSeqNo, k.currentOut,
    k.semAck, k.packet⟩

theorem of_map_nil {o : Option TCPSocket} (h : o.map (·, ([] : List TCPSegment)) = some (k', segs)) :
    o = some k' ∧ segs = [] := by
  obtain ⟨k₁, ho, he⟩ := Option.map_eq_some_iff.1 h
  cases he
  exact ⟨ho, rfl⟩

/-! ## Sending -/

theorem sendReturn_frame : (k.sendReturn n).recvSide = k.recvSide ∧
    (k.sendReturn n).handshake = k.handshake ∧ (k.sendReturn n).sendSide = k.sendSide := by
  unfold sendReturn
  split_ifs <;> exact ⟨rfl, rfl, rfl⟩

theorem sendLoop_frame (buffer : List UInt8) : (k.sendLoop n buffer).recvSide = k.recvSide ∧
    (k.sendLoop n buffer).handshake = k.handshake := by
  unfold sendLoop
  split_ifs
  · exact ⟨sendReturn_frame.1, sendReturn_frame.2.1⟩
  · exact ⟨rfl, rfl⟩

theorem sendto_frame {flags : Int32} {buffer : List UInt8}
    (h : k.sendto flags buffer giveUp = some k') :
    k'.recvSide = k.recvSide ∧ k'.handshake = k.handshake := by
  unfold sendto at h
  split_ifs at h
  · cases h
    exact ⟨rfl, rfl⟩
  · cases h
    exact ⟨rfl, rfl⟩
  · obtain ⟨e, -, rfl⟩ := Option.map_eq_some_iff.1 h
    exact ⟨rfl, rfl⟩
  · cases h
    exact sendLoop_frame buffer

theorem sendWait_frame (h : k.sendWait i giveUp = some k') :
    k'.recvSide = k.recvSide ∧ k'.handshake = k.handshake := by
  unfold sendWait at h
  split at h
  · obtain ⟨⟨status, units⟩, -, rfl⟩ := Option.map_eq_some_iff.1 h
    simp only
    split_ifs
    · exact ⟨rfl, rfl⟩
    · exact ⟨sendReturn_frame.1, sendReturn_frame.2.1⟩
    · exact ⟨sendReturn_frame.1, sendReturn_frame.2.1⟩
    · exact ⟨rfl, rfl⟩
  · cases h

theorem sendCopy_frame (h : k.sendCopy i = some k') :
    k'.recvSide = k.recvSide ∧ k'.handshake = k.handshake := by
  unfold sendCopy at h
  split at h
  · cases h
    exact ⟨rfl, rfl⟩
  · cases h

theorem sendPost_frame (h : k.sendPost i = some k') :
    k'.recvSide = k.recvSide ∧ k'.handshake = k.handshake := by
  unfold sendPost at h
  split at h
  · obtain ⟨units, -, rfl⟩ := Option.map_eq_some_iff.1 h
    exact sendLoop_frame _
  · cases h

theorem shutdown_frame {rd wr : Bool} (h : k.shutdown rd wr = some k') :
    k'.recvSide = k.recvSide ∧ k'.handshake = k.handshake := by
  unfold shutdown at h
  cases rd <;> simp only [if_true, Bool.false_eq_true, if_false] at h <;> split_ifs at h
  · obtain ⟨units, -, rfl⟩ := Option.map_eq_some_iff.1 h
    exact ⟨rfl, rfl⟩
  · cases h
    exact ⟨rfl, rfl⟩
  · obtain ⟨units, -, rfl⟩ := Option.map_eq_some_iff.1 h
    exact ⟨rfl, rfl⟩
  · cases h
    exact ⟨rfl, rfl⟩

theorem close_frame (h : k.close = some k') :
    k'.recvSide = k.recvSide ∧ k'.handshake = k.handshake := by
  obtain ⟨units, -, rfl⟩ := Option.map_eq_some_iff.1 h
  exact ⟨rfl, rfl⟩

/-- A call of `tcpsock_sendto` returns or goes round its loop. -/
theorem sendLoop_sendSide (buffer : List UInt8) :
    (k.sendLoop n buffer).sendSide = k.sendSide ∨
      (k.sendLoop n buffer).sendSide =
        { k.sendSide with sends := .wait n buffer :: k.sends } := by
  unfold sendLoop
  split_ifs
  · exact Or.inl sendReturn_frame.2.2
  · exact Or.inr rfl

theorem sendto_sendSide {flags : Int32} {buffer : List UInt8}
    (h : k.sendto flags buffer giveUp = some k') :
    k'.sendSide = k.sendSide ∨
      k'.sendSide = { k.sendSide with sends := .wait 0 buffer :: k.sends } := by
  unfold sendto at h
  split_ifs at h
  · cases h
    exact Or.inl rfl
  · cases h
    exact Or.inl rfl
  · obtain ⟨e, -, rfl⟩ := Option.map_eq_some_iff.1 h
    exact Or.inl rfl
  · cases h
    exact sendLoop_sendSide buffer

/-- The units that a call of `tcpsock_sendto` asks for. -/
def sendCount (buffer : List UInt8) : ℕ :=
  if buffer.length > TCP_BUFFER_SIZE then TCP_BUFFER_SIZE else buffer.length

theorem sendWait_sendSide (h : k.sendWait i giveUp = some k') :
    ∃ w buffer status units, k.sends[i]? = some (.wait w buffer) ∧
      k.semSendPut.waitGen (.ofNat (sendCount buffer)) giveUp = some (status, units) ∧
        (k'.sendSide = { k.sendSide with semSendPut := units, sends := k.sends.eraseIdx i } ∨
          ¬ status < 0 ∧ k'.sendSide = { k.sendSide with
            semSendPut := units
            sends := .copy w buffer status.toInt.toNat :: k.sends.eraseIdx i }) := by
  unfold sendWait at h
  split at h
  · next w buffer hcall =>
    obtain ⟨⟨status, units⟩, hwait, rfl⟩ := Option.map_eq_some_iff.1 h
    refine ⟨w, buffer, status, units, hcall, hwait, ?_⟩
    simp only
    split_ifs with hneg
    · exact Or.inl rfl
    · exact Or.inl sendReturn_frame.2.2
    · exact Or.inl sendReturn_frame.2.2
    · exact Or.inr ⟨hneg, rfl⟩
  · cases h

theorem sendCopy_sendSide (h : k.sendCopy i = some k') :
    ∃ w buffer status, k.sends[i]? = some (.copy w buffer status) ∧
      k'.sendSide = { k.sendSide with
        bufSend := (Ring.put TCP_BUFFER_SIZE k.bufSend k.idxSendPut (buffer.take status)).1
        idxSendPut := (Ring.put TCP_BUFFER_SIZE k.bufSend k.idxSendPut (buffer.take status)).2
        accepted := k.accepted ++ buffer.take status
        sends := .post (w + status) (buffer.drop status) status :: k.sends.eraseIdx i } := by
  unfold sendCopy at h
  split at h
  · next w buffer status hcall =>
    cases h
    exact ⟨w, buffer, status, hcall, rfl⟩
  · cases h

theorem sendPost_sendSide (h : k.sendPost i = some k') :
    ∃ w buffer gotCount units, k.sends[i]? = some (.post w buffer gotCount) ∧
      k.semSendFetch.signal (.ofNat gotCount) = some units ∧
        (k'.sendSide = { k.sendSide with semSendFetch := units, sends := k.sends.eraseIdx i } ∨
          k'.sendSide = { k.sendSide with
            semSendFetch := units, sends := .wait w buffer :: k.sends.eraseIdx i }) := by
  unfold sendPost at h
  split at h
  · next w buffer gotCount hcall =>
    obtain ⟨units, hunits, rfl⟩ := Option.map_eq_some_iff.1 h
    exact ⟨w, buffer, gotCount, units, hcall, hunits, sendLoop_sendSide buffer⟩
  · cases h

theorem shutdown_sendSide {rd wr : Bool} (h : k.shutdown rd wr = some k') :
    k'.sendSide = k.sendSide ∨ ∃ units, k.semSendPut.terminate = some units ∧
      k'.sendSide = { k.sendSide with semSendPut := units } := by
  unfold shutdown at h
  cases rd <;> simp only [if_true, Bool.false_eq_true, if_false] at h <;> split_ifs at h
  · obtain ⟨units, hunits, rfl⟩ := Option.map_eq_some_iff.1 h
    exact Or.inr ⟨units, hunits, rfl⟩
  · cases h
    exact Or.inl rfl
  · obtain ⟨units, hunits, rfl⟩ := Option.map_eq_some_iff.1 h
    exact Or.inr ⟨units, hunits, rfl⟩
  · cases h
    exact Or.inl rfl

theorem close_sendSide (h : k.close = some k') : ∃ units,
    k.semSendFetch.terminate = some units ∧
      k'.sendSide = { k.sendSide with semSendFetch := units } := by
  obtain ⟨units, hunits, rfl⟩ := Option.map_eq_some_iff.1 h
  exact ⟨units, hunits, rfl⟩

/-! ## Receiving -/

/-- The bytes that a call of `tcpsock_recvfrom` returned. -/
def resultBytes : Except Int32 (List UInt8) → List UInt8
  | .ok bytes => bytes
  | .error _ => []

theorem recvfrom_recvSide (flags : Int32) (len : ℕ) :
    (∃ r, resultBytes r = [] ∧ (k.recvfrom flags len).recvSide =
        { k.recvSide with recvResults := k.recvResults ++ [r] }) ∨
      (k.recvfrom flags len).recvSide = { k.recvSide with recvs := .wait len :: k.recvs } := by
  unfold recvfrom
  split_ifs
  · exact Or.inl ⟨_, rfl, rfl⟩
  · exact Or.inl ⟨_, rfl, rfl⟩
  · exact Or.inr rfl

theorem recvWait_recvSide (h : k.recvWait i giveUp = some k') :
    ∃ len size units, k.recvs[i]? = some (.wait len) ∧
      k.semRecvFetch.waitGen (.ofNat len) giveUp = some (size, units) ∧
        ((∃ r, size.toInt ≤ 0 ∧ resultBytes r = [] ∧ k'.recvSide = { k.recvSide with
            semRecvFetch := units
            recvs := k.recvs.eraseIdx i
            recvResults := k.recvResults ++ [r] }) ∨
          ¬ size < 0 ∧ size ≠ 0 ∧ k'.recvSide = { k.recvSide with
            semRecvFetch := units
            recvs := .copy size.toInt.toNat :: k.recvs.eraseIdx i }) := by
  unfold recvWait at h
  split at h
  · next len hcall =>
    obtain ⟨⟨size, units⟩, hwait, rfl⟩ := Option.map_eq_some_iff.1 h
    refine ⟨len, size, units, hcall, hwait, ?_⟩
    simp only
    by_cases hneg : size < 0
    · have hle : size.toInt ≤ 0 := (Int32.lt_iff_toInt_lt.1 hneg).le
      rw [if_pos hneg]
      exact Or.inl ⟨_, hle, rfl, rfl⟩
    rw [if_neg hneg]
    by_cases hzero : size = 0
    · have hle : size.toInt ≤ 0 := hzero ▸ le_rfl
      rw [if_pos hzero]
      split_ifs
      · exact Or.inl ⟨_, hle, rfl, rfl⟩
      · exact Or.inl ⟨_, hle, rfl, rfl⟩
    · rw [if_neg hzero]
      exact Or.inr ⟨hneg, hzero, rfl⟩
  · cases h

theorem recvCopy_recvSide (h : k.recvCopy i = some k') :
    ∃ size, k.recvs[i]? = some (.copy size) ∧ k'.recvSide = { k.recvSide with
      idxRecvFetch := (Ring.get TCP_BUFFER_SIZE k.bufRecv k.idxRecvFetch size).2
      cntRecvPut := k.cntRecvPut + size
      recvs := k.recvs.eraseIdx i
      recvResults := k.recvResults ++
        [.ok (Ring.get TCP_BUFFER_SIZE k.bufRecv k.idxRecvFetch size).1] } := by
  unfold recvCopy at h
  split at h
  · next size hcall =>
    cases h
    exact ⟨size, hcall, rfl⟩
  · cases h

theorem recvfrom_frame (flags : Int32) (len : ℕ) :
    (k.recvfrom flags len).sendSide = k.sendSide ∧
      (k.recvfrom flags len).handshake = k.handshake := by
  unfold recvfrom
  split_ifs <;> exact ⟨rfl, rfl⟩

theorem recvWait_frame (h : k.recvWait i giveUp = some k') :
    k'.sendSide = k.sendSide ∧ k'.handshake = k.handshake := by
  unfold recvWait at h
  split at h
  · obtain ⟨⟨size, units⟩, -, rfl⟩ := Option.map_eq_some_iff.1 h
    simp only
    split_ifs <;> exact ⟨rfl, rfl⟩
  · cases h

theorem recvCopy_frame (h : k.recvCopy i = some k') :
    k'.sendSide = k.sendSide ∧ k'.handshake = k.handshake := by
  unfold recvCopy at h
  split at h
  · cases h
    exact ⟨rfl, rfl⟩
  · cases h

/-! ## The handler thread -/

theorem drainAckOut_frame : k.drainAckOut.recvSide = k.recvSide ∧
    k.drainAckOut.handshake = k.handshake ∧ k.drainAckOut.sendSide = k.sendSide := by
  unfold drainAckOut
  split_ifs <;> exact ⟨rfl, rfl, rfl⟩

theorem fail_recvSide {error : Int32} {thread : TcpThread} (h : k.fail error thread = some k') :
    k'.recvSide = k.recvSide ∧ k'.nextAckNo = k.nextAckNo ∧ k'.packet = k.packet := by
  obtain ⟨units, -, rfl⟩ := Option.map_eq_some_iff.1 h
  exact ⟨rfl, rfl, rfl⟩

theorem drainAckOut_recvSide : k.drainAckOut.recvSide = k.recvSide ∧
    k.drainAckOut.nextAckNo = k.nextAckNo ∧ k.drainAckOut.packet = k.packet := by
  unfold drainAckOut
  split_ifs <;> exact ⟨rfl, rfl, rfl⟩

theorem makeOutbound_recvSide {count : Int32} (h : k.makeOutbound count = some k') :
    k'.recvSide = k.recvSide ∧ k'.nextAckNo = k.nextAckNo ∧ k'.packet = k.packet := by
  obtain ⟨units, -, rfl⟩ := Option.map_eq_some_iff.1 h
  exact ⟨rfl, rfl, rfl⟩

theorem tcpThread_recvSide {env : ThreadEnv} (h : k.tcpThread env = some (k', segs)) :
    k'.recvSide = k.recvSide ∧ k'.nextAckNo = k.nextAckNo ∧ k'.packet = k.packet := by
  unfold tcpThread at h
  split at h
  · cases h
  · cases h
  · cases h
  · -- sending
    split_ifs at h
    · obtain ⟨k₁, hfail, he⟩ := Option.map_eq_some_iff.1 h
      cases he
      exact fail_recvSide hfail
    · obtain ⟨k₁, hfail, he⟩ := Option.map_eq_some_iff.1 h
      cases he
      exact fail_recvSide hfail
    · cases h
      exact ⟨rfl, rfl, rfl⟩
  · -- polling
    split_ifs at h
    · cases h
      exact ⟨rfl, rfl, rfl⟩
    · cases h
      split_ifs <;> exact ⟨rfl, rfl, rfl⟩
    · cases h
      exact drainAckOut_recvSide
  · -- connecting
    split_ifs at h
    · obtain ⟨units, -, he⟩ := Option.map_eq_some_iff.1 h
      cases he
      exact ⟨rfl, rfl, rfl⟩
    · cases h
      exact ⟨rfl, rfl, rfl⟩
    · cases h
      exact ⟨rfl, rfl, rfl⟩
  · -- idle
    split_ifs at h
    · obtain ⟨⟨count, units⟩, -, he⟩ := Option.map_eq_some_iff.1 h
      cases he
      exact drainAckOut_recvSide
    · cases h
      split_ifs
      · exact drainAckOut_recvSide
      · exact drainAckOut_recvSide
    · cases h
      exact ⟨rfl, rfl, rfl⟩
  · -- fetched
    obtain ⟨k₁, hout, he⟩ := Option.map_eq_some_iff.1 h
    cases he
    exact makeOutbound_recvSide hout
  · -- closing
    simp only at h
    split_ifs at h
    · cases h
      exact ⟨rfl, rfl, rfl⟩
    · cases h
      exact drainAckOut_recvSide
    · cases h
      exact ⟨rfl, rfl, rfl⟩
  · -- draining
    obtain ⟨⟨count, units⟩, -, he⟩ := Option.map_eq_some_iff.1 h
    cases he
    exact ⟨rfl, rfl, rfl⟩

/-! ## Segments that arrive -/

/-- What a segment does to the receiving side, and to the number that is expected next. -/
inductive PacketEffect (k : TCPSocket) (seg : TCPSegment) (k' : TCPSocket) : Prop
  | nothing (hrecv : k'.recvSide = k.recvSide) (hack : k'.nextAckNo = k.nextAckNo)
  | syn (hfirst : k.semConnected.count = 0) (hlive : k.state ≠ .terminated)
      (hsyn : seg.has TCP_SYN = true) (hrecv : k'.recvSide = k.recvSide)
      (hack : k'.nextAckNo = seg.seqno + 1)
      (hconn : k.semConnected.signal 1 = some k'.semConnected)
  | fin (hlive : k.state ≠ .terminated) (hsyn : seg.has TCP_SYN = false)
      (hfin : seg.has TCP_FIN = true) (hrst : seg.has TCP_RST = false)
      (hseq : seg.seqno = k.nextAckNo) {units : SemUnits}
      (hunits : k.semRecvFetch.terminate = some units)
      (hrecv : k'.recvSide = { k.recvSide with semRecvFetch := units })
      (hack : k'.nextAckNo = k.nextAckNo + 1)
  | data (hsyn : seg.has TCP_SYN = false) (hfin : seg.has TCP_FIN = false)
      (hpush : seg.has TCP_PSH = true ∨ seg.headerSize < seg.size)
      (hseq : seg.seqno = k.nextAckNo) (hroom : seg.payloadSize ≤ k.cntRecvPut)
      (hsize : seg.payloadSize ≤ seg.payload.length) {units : SemUnits}
      (hunits : k.semRecvFetch.signal (.ofNat seg.payloadSize) = some units)
      (hrecv : k'.recvSide = { k.recvSide with
        bufRecv := (Ring.put TCP_BUFFER_SIZE k.bufRecv k.idxRecvPut seg.payload).1
        cntRecvPut := k.cntRecvPut - seg.payloadSize
        semRecvFetch := units
        idxRecvPut := (Ring.put TCP_BUFFER_SIZE k.bufRecv k.idxRecvPut seg.payload).2
        received := k.received ++ seg.payload })
      (hack : k'.nextAckNo = k.nextAckNo + UInt32.ofNat seg.payloadSize)

variable {seg : TCPSegment}

theorem ackOut_recvSide (h : k.ackOut = some k') :
    k'.recvSide = k.recvSide ∧ k'.nextAckNo = k.nextAckNo := by
  obtain ⟨units, -, rfl⟩ := Option.map_eq_some_iff.1 h
  exact ⟨rfl, rfl⟩

theorem packetSyn_effect (hlive : k.state ≠ .terminated) (hsyn : seg.has TCP_SYN = true)
    (h : k.packetSyn seg = some k') : PacketEffect k seg k' := by
  unfold packetSyn at h
  split_ifs at h with hfirst
  · obtain ⟨conn, hconn, h⟩ := Option.bind_eq_some_iff.1 h
    obtain ⟨units, -, rfl⟩ := Option.map_eq_some_iff.1 h
    exact .syn hfirst hlive hsyn rfl rfl hconn
  · obtain ⟨hrecv, hack⟩ := ackOut_recvSide h
    exact .nothing hrecv hack

theorem packetFin_effect (hlive : k.state ≠ .terminated) (hsyn : seg.has TCP_SYN = false)
    (hfin : seg.has TCP_FIN = true) (hrst : seg.has TCP_RST = false ∨ seg.seqno ≠ k.nextAckNo)
    (h : k.packetFin seg = some k') : PacketEffect k seg k' := by
  unfold packetFin at h
  split_ifs at h with hseq
  · obtain ⟨units, hunits, h⟩ := Option.bind_eq_some_iff.1 h
    obtain ⟨hrecv, hack⟩ := ackOut_recvSide h
    exact .fin hlive hsyn hfin (hrst.resolve_right fun hne => hne hseq) hseq hunits hrecv
      (hack.trans (congrArg (· + 1) hseq))
  · cases h
    exact .nothing rfl rfl

theorem packetData_effect (hsyn : seg.has TCP_SYN = false) (hfin : seg.has TCP_FIN = false)
    (hpush : seg.has TCP_PSH = true ∨ seg.headerSize < seg.size)
    (h : k.packetData seg = some k') : PacketEffect k seg k' := by
  unfold packetData at h
  split_ifs at h with hseq hroom hsize
  · cases h
    exact .nothing rfl rfl
  · obtain ⟨units, hunits, h⟩ := Option.bind_eq_some_iff.1 h
    obtain ⟨hrecv, hack⟩ := ackOut_recvSide h
    exact .data hsyn hfin hpush hseq (Nat.le_of_not_lt hroom) (Nat.le_of_not_lt hsize) hunits hrecv
      hack
  · obtain ⟨hrecv, hack⟩ := ackOut_recvSide h
    exact .nothing hrecv hack

/-- A segment with `TCP_RST` ends the connection or does nothing. -/
theorem packetRst_cases (h : k.packetRst seg = some k') :
    k' = k ∧ (seg.has TCP_RST = false ∨ seg.seqno ≠ k.nextAckNo) ∨
      seg.has TCP_RST = true ∧ k'.recvSide = k.recvSide ∧ k'.nextAckNo = k.nextAckNo ∧
        k'.state = .terminated := by
  unfold packetRst at h
  split_ifs at h with hrst
  · obtain ⟨units, -, rfl⟩ := Option.map_eq_some_iff.1 h
    simp only [Bool.and_eq_true] at hrst
    exact Or.inr ⟨hrst.1, rfl, rfl, rfl⟩
  · cases h
    refine Or.inl ⟨rfl, ?_⟩
    simp only [Bool.and_eq_true, beq_iff_eq, not_and_or] at hrst
    exact hrst.imp_left (Bool.eq_false_of_not_eq_true ·)

theorem packetRest_effect (h : k.packetRest = some k') :
    ∃ seg, k.packet = some seg ∧ PacketEffect k seg k' := by
  unfold packetRest at h
  split at h
  · cases h
  · next seg hseg =>
    refine ⟨seg, hseg, ?_⟩
    obtain ⟨k₁, hrst, h⟩ := Option.bind_eq_some_iff.1 h
    rcases packetRst_cases hrst with ⟨rfl, hno⟩ | ⟨-, hrecv₁, hack₁, hterm⟩
    · have heffect : PacketEffect { k with packet := none } seg k' := by
        split_ifs at h with hstate hsyn hfin hpush
        · obtain ⟨hrecv, hack⟩ := ackOut_recvSide h
          exact .nothing hrecv hack
        · exact packetSyn_effect hstate hsyn h
        · exact packetFin_effect hstate (Bool.eq_false_of_not_eq_true hsyn) hfin hno h
        · exact packetData_effect (Bool.eq_false_of_not_eq_true hsyn)
            (Bool.eq_false_of_not_eq_true hfin) hpush h
        · cases h
          exact .nothing rfl rfl
      cases heffect with
      | nothing hrecv hack => exact .nothing hrecv hack
      | syn hfirst hlive hsyn hrecv hack hconn => exact .syn hfirst hlive hsyn hrecv hack hconn
      | fin hlive hsyn hfin hrst hseq hunits hrecv hack =>
        exact .fin hlive hsyn hfin hrst hseq hunits hrecv hack
      | data hsyn hfin hpush hseq hroom hsize hunits hrecv hack =>
        exact .data hsyn hfin hpush hseq hroom hsize hunits hrecv hack
    · rw [if_pos hterm] at h
      obtain ⟨hrecv, hack⟩ := ackOut_recvSide h
      exact .nothing (hrecv.trans hrecv₁) (hack.trans hack₁)

/-! ## The segment in hand -/

theorem ackOut_packet (h : k.ackOut = some k') : k'.packet = k.packet := by
  obtain ⟨units, -, rfl⟩ := Option.map_eq_some_iff.1 h
  rfl

theorem packetAck_packet (h : k.packetAck seg = some k') : k'.packet = some seg := by
  unfold packetAck at h
  split_ifs at h
  · obtain ⟨units, -, rfl⟩ := Option.map_eq_some_iff.1 h
    rfl
  · cases h
    rfl

theorem packetRest_packet (h : k.packetRest = some k') : k'.packet = none := by
  unfold packetRest at h
  split at h
  · cases h
  · obtain ⟨k₁, hrst, h⟩ := Option.bind_eq_some_iff.1 h
    have h₁ : k₁.packet = none := by
      unfold packetRst at hrst
      split_ifs at hrst
      · obtain ⟨units, -, rfl⟩ := Option.map_eq_some_iff.1 hrst
        rfl
      · cases hrst
        rfl
    split_ifs at h
    · exact (ackOut_packet h).trans h₁
    · unfold packetSyn at h
      split_ifs at h
      · obtain ⟨units, -, h⟩ := Option.bind_eq_some_iff.1 h
        exact (ackOut_packet h).trans h₁
      · exact (ackOut_packet h).trans h₁
    · unfold packetFin at h
      split_ifs at h
      · obtain ⟨units, -, h⟩ := Option.bind_eq_some_iff.1 h
        exact (ackOut_packet h).trans h₁
      · exact Option.some.inj h ▸ h₁
    · unfold packetData at h
      split_ifs at h
      · exact Option.some.inj h ▸ h₁
      · obtain ⟨units, -, h⟩ := Option.bind_eq_some_iff.1 h
        exact (ackOut_packet h).trans h₁
      · exact (ackOut_packet h).trans h₁
    · exact Option.some.inj h ▸ h₁

/-- A segment comes in hand only when it arrives. -/
theorem step_packet {op : SockOp} (hop : op ≠ .packetRest) (h : k.step op = some (k', segs)) :
    k'.packet = k.packet ∨ ∃ seg, op = .packetAck seg ∧ k'.packet = some seg := by
  cases op with
  | connect random =>
    obtain ⟨hcall, -⟩ := of_map_nil h
    unfold connect at hcall
    split_ifs at hcall
    cases hcall
    exact Or.inl rfl
  | accept random pendAckno =>
    obtain ⟨hcall, -⟩ := of_map_nil h
    unfold accept at hcall
    split_ifs at hcall
    obtain ⟨units, -, rfl⟩ := Option.map_eq_some_iff.1 hcall
    exact Or.inl rfl
  | sendto flags buffer giveUp =>
    exact Or.inl (congrArg Handshake.packet (sendto_frame (of_map_nil h).1).2)
  | sendWait i giveUp =>
    exact Or.inl (congrArg Handshake.packet (sendWait_frame (of_map_nil h).1).2)
  | sendCopy i => exact Or.inl (congrArg Handshake.packet (sendCopy_frame (of_map_nil h).1).2)
  | sendPost i => exact Or.inl (congrArg Handshake.packet (sendPost_frame (of_map_nil h).1).2)
  | recvfrom flags len =>
    cases h
    exact Or.inl (congrArg Handshake.packet (recvfrom_frame flags len).2)
  | recvWait i giveUp =>
    exact Or.inl (congrArg Handshake.packet (recvWait_frame (of_map_nil h).1).2)
  | recvCopy i => exact Or.inl (congrArg Handshake.packet (recvCopy_frame (of_map_nil h).1).2)
  | shutdown rd wr =>
    exact Or.inl (congrArg Handshake.packet (shutdown_frame (of_map_nil h).1).2)
  | close => exact Or.inl (congrArg Handshake.packet (close_frame (of_map_nil h).1).2)
  | packetAck seg => exact Or.inr ⟨seg, rfl, packetAck_packet (of_map_nil h).1⟩
  | packetRest => exact absurd rfl hop
  | thread env => exact Or.inl (tcpThread_recvSide h).2.2

end TCPSocket

end Glidix.Net
