import Glidix.Lib.Runs
import Glidix.Net.TcpAcknowledge
import Glidix.Net.TcpBuffers

/-!
# The accounts of the receive buffer

The free room of the receive buffer of a TCP socket is the counter `cntRecvPut`, and what can be
taken out of it are the units of `semRecvFetch`; a call of `tcpsock_recvfrom` that has taken units
gives the room back when it has copied the bytes.  Together these are the size of the buffer
(`Balanced`), as long as `semWaitGen` is not asked for a negative number of units where there are
some, and no data are stored after a FIN, when the semaphore does not take signals any more.
-/

namespace Glidix.Net

open Glidix.Thread TCPSocket

/-! ## Accounts -/

/-- The bytes that readers have taken and not copied yet. -/
def RecvSide.reserved (v : RecvSide) : ℕ := (v.recvs.map RecvCall.reserved).sum

/-- The room, the bytes that can be taken and those that were taken make up the buffer. -/
def RecvSide.Balanced (v : RecvSide) : Prop :=
  v.cntRecvPut + v.semRecvFetch.left + v.reserved = TCP_BUFFER_SIZE

/-- Every byte that was stored has been returned by a call that succeeded, or is in the buffer, where
it can be taken or was taken by a call in progress. -/
structure Accounted (v : RecvSide) (queue : List UInt8) : Prop where
  buf : RecvBuf v queue
  sound : v.semRecvFetch.Sound
  all : v.semRecvFetch.left + v.reserved = queue.length

theorem Accounted.balanced {v : RecvSide} {queue : List UInt8} (h : Accounted v queue) :
    v.Balanced := by
  have hroom := h.buf.room
  have hall := h.all
  unfold RecvSide.Balanced
  omega

/-- What a call that fails leaves as it was. -/
structure SameBytes (v v' : RecvSide) : Prop where
  bufRecv : v'.bufRecv = v.bufRecv
  idxRecvFetch : v'.idxRecvFetch = v.idxRecvFetch
  cntRecvPut : v'.cntRecvPut = v.cntRecvPut
  units : v'.semRecvFetch.left = v.semRecvFetch.left

/-- A call of `tcpsock_recvfrom` fails in a step. -/
def Fails (k k' : TCPSocket) : Prop := ∃ e, k'.recvResults = k.recvResults ++ [.error e]

/-- Sockets from their creation on, with segments from any peer. -/
def recvSystem : System TCPSocket SockOp where
  init k := ∃ srcport dstport, k = CreateTCPSocket srcport dstport
  step k op k' := op.Sized ∧ ∃ segs, k.step op = some (k', segs)

/-- Where there are units, `semWaitGen` is not asked for fewer than -1 of them; and a segment that
would be stored after a FIN has no data. -/
def CountsRight (k : TCPSocket) : SockOp → Prop
  | .recvWait i none => ∀ len, k.recvs[i]? = some (.wait len) → k.semRecvFetch.left ≠ 0 →
      -1 ≤ (Int32.ofNat len).toInt
  | .packetRest => ∀ seg, k.packet = some seg → k.semRecvFetch.terminated = true →
      k.state ≠ .terminated → seg.has TCP_RST = false → seg.has TCP_SYN = false →
        seg.has TCP_FIN = false → seg.seqno = k.nextAckNo → seg.payloadSize ≤ k.cntRecvPut →
          seg.payload = []
  | _ => True

/-- What holds in every state of a run whose steps count right. -/
structure RecvInv (k : TCPSocket) : Prop where
  sized : ∀ seg, k.packet = some seg → seg.size < 2 ^ 32
  accounted : ∃ queue, Accounted k.recvSide queue

/-! ## Steps of the receiving side -/

section Steps

variable {k k' : TCPSocket} {segs : List TCPSegment} {queue : List UInt8} {i : ℕ}
  {giveUp : Option GiveUp} {seg : TCPSegment}

/-- The steps that have nothing to do with the receiving side. -/
def SockOp.Elsewhere : SockOp → Prop
  | .recvfrom _ _ | .recvWait _ _ | .recvCopy _ | .packetRest => False
  | _ => True

theorem step_elsewhere {op : SockOp} (hop : op.Elsewhere) (h : k.step op = some (k', segs)) :
    k'.recvSide = k.recvSide := by
  cases op with
  | connect random =>
    obtain ⟨hcall, -⟩ := of_map_nil h
    unfold connect at hcall
    split_ifs at hcall
    cases hcall
    rfl
  | accept random pendAckno =>
    obtain ⟨hcall, -⟩ := of_map_nil h
    unfold accept at hcall
    split_ifs at hcall
    obtain ⟨units, -, rfl⟩ := Option.map_eq_some_iff.1 hcall
    rfl
  | sendto flags buffer giveUp => exact (sendto_frame (of_map_nil h).1).1
  | sendWait i giveUp => exact (sendWait_frame (of_map_nil h).1).1
  | sendCopy i => exact (sendCopy_frame (of_map_nil h).1).1
  | sendPost i => exact (sendPost_frame (of_map_nil h).1).1
  | recvfrom flags len => exact hop.elim
  | recvWait i giveUp => exact hop.elim
  | recvCopy i => exact hop.elim
  | shutdown rd wr => exact (shutdown_frame (of_map_nil h).1).1
  | close => exact (close_frame (of_map_nil h).1).1
  | packetAck seg =>
    obtain ⟨hcall, -⟩ := of_map_nil h
    unfold packetAck at hcall
    split_ifs at hcall
    · obtain ⟨units, -, rfl⟩ := Option.map_eq_some_iff.1 hcall
      rfl
    · cases hcall
      rfl
  | packetRest => exact hop.elim
  | thread env => exact (tcpThread_recvSide h).1

theorem Accounted.recvfrom {flags : Int32} {len : ℕ} (h : Accounted k.recvSide queue) :
    Accounted (k.recvfrom flags len).recvSide queue := by
  have hbuf : RecvBuf (k.recvfrom flags len).recvSide queue := h.buf.recvfrom
  have hall := h.all
  rcases TCPSocket.recvfrom_recvSide (k := k) flags len with ⟨r, -, he⟩ | he
  · rw [he] at hbuf ⊢
    exact ⟨hbuf, h.sound, hall⟩
  · rw [he] at hbuf ⊢
    refine ⟨hbuf, h.sound, ?_⟩
    simp only [RecvSide.reserved, List.map_cons, List.sum_cons, RecvCall.reserved, Nat.zero_add]
    exact hall

theorem Accounted.recvWait (h : Accounted k.recvSide queue)
    (hright : CountsRight k (.recvWait i giveUp)) (hr : k.recvWait i giveUp = some k') :
    Accounted k'.recvSide queue := by
  have htake : ∀ len size units, k.recvs[i]? = some (.wait len) →
      k.semRecvFetch.waitGen (.ofNat len) giveUp = some (size, units) →
        units.Sound ∧ units.left + size.toInt.toNat = k.semRecvFetch.left := by
    intro len size units hcall hwait
    refine h.sound.waitGen_right (fun hnone hleft => ?_) hwait
    subst hnone
    exact hright len hcall hleft
  have hbuf := h.buf.recvWait (fun len size units hcall hwait =>
    ⟨(htake len size units hcall hwait).1.valid, (htake len size units hcall hwait).2⟩) hr
  have hall := h.all
  obtain ⟨len, size, units, hcall, hwait, he⟩ := TCPSocket.recvWait_recvSide hr
  have hreserved := sum_eraseIdx RecvCall.reserved hcall
  obtain ⟨hsound, hsum⟩ := htake len size units hcall hwait
  simp only [RecvSide.reserved, TCPSocket.recvSide, RecvCall.reserved] at hall hreserved
  rcases he with ⟨r, hsize, -, he⟩ | ⟨-, -, he⟩
  · rw [he] at hbuf ⊢
    refine ⟨hbuf, hsound, ?_⟩
    simp only [RecvSide.reserved]
    omega
  · rw [he] at hbuf ⊢
    refine ⟨hbuf, hsound, ?_⟩
    simp only [RecvSide.reserved, List.map_cons, List.sum_cons, RecvCall.reserved]
    omega

theorem Accounted.recvCopy (h : Accounted k.recvSide queue) (hr : k.recvCopy i = some k') :
    ∃ queue', Accounted k'.recvSide queue' := by
  obtain ⟨queue', hbuf⟩ := h.buf.recvCopy hr
  have hall := h.all
  have hroom := h.buf.room
  obtain ⟨size, hcall, he⟩ := TCPSocket.recvCopy_recvSide hr
  have hreserved := sum_eraseIdx RecvCall.reserved hcall
  simp only [RecvSide.reserved, TCPSocket.recvSide, RecvCall.reserved] at hall hreserved hroom
  rw [he] at hbuf ⊢
  have hroom' := hbuf.room
  refine ⟨queue', hbuf, h.sound, ?_⟩
  simp only [RecvSide.reserved, TCPSocket.recvSide] at hroom' ⊢
  omega

/-- Nothing is stored once the connection is over, or when the segment ends it. -/
theorem packetRest_over (hseg : k.packet = some seg)
    (hover : k.state = .terminated ∨ seg.has TCP_RST = true ∧ seg.seqno = k.nextAckNo)
    (h : k.packetRest = some k') : k'.recvSide = k.recvSide := by
  simp only [packetRest, hseg] at h
  obtain ⟨k₁, hrst, h⟩ := Option.bind_eq_some_iff.1 h
  have hterm : k₁.recvSide = k.recvSide ∧ k₁.state = .terminated := by
    unfold packetRst at hrst
    split_ifs at hrst with hreset
    · obtain ⟨units, -, rfl⟩ := Option.map_eq_some_iff.1 hrst
      exact ⟨rfl, rfl⟩
    · cases hrst
      refine ⟨rfl, hover.resolve_right fun hend => hreset ?_⟩
      simp [hend.1, hend.2]
  rw [if_pos hterm.2] at h
  exact (ackOut_recvSide h).1.trans hterm.1

theorem Accounted.packetRest (h : Accounted k.recvSide queue)
    (hsized : ∀ seg, k.packet = some seg → seg.size < 2 ^ 32)
    (hright : CountsRight k .packetRest) (hr : k.packetRest = some k') :
    ∃ queue', Accounted k'.recvSide queue' := by
  obtain ⟨seg, hseg, heffect⟩ := packetRest_effect hr
  by_cases hover : k.state = .terminated ∨ seg.has TCP_RST = true ∧ seg.seqno = k.nextAckNo
  · exact ⟨queue, packetRest_over hseg hover hr ▸ h⟩
  rw [not_or] at hover
  cases heffect with
  | nothing hrecv hack => exact ⟨queue, hrecv ▸ h⟩
  | syn hfirst hlive hsyn hrecv hack hconn => exact ⟨queue, hrecv ▸ h⟩
  | fin hlive hsyn hfin hrst hseq hunits hrecv hack =>
    have hall := h.all
    have hbuf := h.buf.terminate hunits
    obtain ⟨hsound, hleft, -⟩ := h.sound.terminate hunits
    rw [hrecv]
    exact ⟨queue, hbuf, hsound, by simp only [hleft]; exact hall⟩
  | @data hsyn hfin hpush hseq hroom hsize units hunits hrecv hack =>
    have hlen := payloadSize_eq (hsized seg hseg) hsize
    have hrst : seg.has TCP_RST = false :=
      Bool.eq_false_of_not_eq_true fun hset => hover.2 ⟨hset, hseq⟩
    have hempty := fun hterm => hright seg hseg hterm hover.1 hrst hsyn hfin hseq hroom
    have hbuf := h.buf.store hlen hroom hunits
    have hall := h.all
    have hle : seg.payloadSize ≤ TCP_BUFFER_SIZE := by
      have := h.buf.room
      exact hroom.trans (by simp only [recvSide] at this; omega)
    have hint := toInt_ofNat_of_le hle
    have hmax : TCP_BUFFER_SIZE < 2 ^ 31 := by decide
    have hbalanced := h.balanced
    simp only [RecvSide.Balanced, RecvSide.reserved, recvSide] at hall hbalanced
    have hnonneg : 0 ≤ (Int32.ofNat seg.payloadSize).toInt := by omega
    have hlt : k.semRecvFetch.left + (Int32.ofNat seg.payloadSize).toInt.toNat < 2 ^ 31 := by omega
    obtain ⟨hsound, -, hleft⟩ := h.sound.signal hnonneg hlt hunits
    rw [hrecv]
    refine ⟨queue ++ seg.payload, hbuf, hsound, ?_⟩
    have hadd : (Int32.ofNat seg.payloadSize).toInt.toNat = seg.payload.length := by
      rw [hint, Int.toNat_natCast, hlen]
    show units.left + (k.recvs.map RecvCall.reserved).sum = (queue ++ seg.payload).length
    rw [hleft, List.length_append, ← hall]
    split_ifs with hterm
    · rw [hempty hterm, List.length_nil, Nat.add_zero]
      rfl
    · rw [hadd]
      exact Nat.add_right_comm _ _ _

/-! ## Steps that count wrong -/

theorem not_balanced_recvWait (h : Accounted k.recvSide queue)
    (hwrong : ¬ CountsRight k (.recvWait i giveUp)) (hr : k.recvWait i giveUp = some k') :
    ¬ k'.recvSide.Balanced := by
  cases giveUp with
  | some e => exact absurd trivial hwrong
  | none =>
    simp only [CountsRight, not_forall, Int.not_le] at hwrong
    obtain ⟨len, hlen, hleft, hneg⟩ := hwrong
    obtain ⟨len', size, units, hcall, hwait, he⟩ := TCPSocket.recvWait_recvSide hr
    obtain rfl : len' = len := by
      cases hlen.symm.trans hcall
      rfl
    have hpos : 0 < k.semRecvFetch.count.toInt := by
      unfold SemUnits.left at hleft
      omega
    have htaken : k.semRecvFetch.take (.ofNat len') = (size, units) := by
      rcases SemUnits.waitGen_cases hwait with ⟨⟨e, rfl⟩, rfl⟩ | ⟨-, m, htake, hm⟩
      · rw [SemUnits.waitGen, if_neg, if_neg, SemUnits.acquire, if_neg] at hwait
        · exact Option.some.inj hwait
        · exact fun hzero => by rw [hzero, Int32.toInt_zero] at hpos; omega
        · exact fun hone => by rw [hone, SemUnits.toInt_neg_one] at hneg; omega
        · exact fun hzero => by rw [hzero, Int32.toInt_zero] at hneg; omega
      · obtain ⟨rfl, -, -⟩ | ⟨hone, -⟩ := hm
        · exact htake
        · rw [hone, SemUnits.toInt_neg_one] at hneg
          omega
    obtain ⟨hsize, hunits⟩ := SemUnits.left_take_of_neg (n := .ofNat len') hpos (by omega)
    rw [htaken] at hsize hunits
    have hreserved := sum_eraseIdx RecvCall.reserved hcall
    have hbalanced := h.balanced
    rcases he with ⟨r, -, -, he⟩ | ⟨hpos', -, -⟩
    · rw [he]
      simp only [RecvSide.Balanced, RecvSide.reserved, recvSide, RecvCall.reserved]
        at hreserved hbalanced hunits ⊢
      omega
    · have hsize' : size = .ofNat len' := hsize
      rw [hsize'] at hpos'
      exact absurd (Int32.lt_iff_toInt_lt.2 (by rw [Int32.toInt_zero]; omega)) hpos'

theorem signal_of_terminated {u u' : SemUnits} {n : Int32} (hterm : u.terminated = true)
    (h : u.signal n = some u') : u' = u := by
  unfold SemUnits.signal at h
  split_ifs at h
  · exact (Option.some.inj h).symm
  · exact (Option.some.inj h).symm

theorem not_balanced_packetRest (h : Accounted k.recvSide queue)
    (hsized : ∀ seg, k.packet = some seg → seg.size < 2 ^ 32)
    (hwrong : ¬ CountsRight k .packetRest) (hr : k.packetRest = some k') :
    ¬ k'.recvSide.Balanced := by
  simp only [CountsRight, not_forall] at hwrong
  obtain ⟨seg, hseg, hterm, hlive, hrst, hsyn, hfin, hseq, hroom, hdata⟩ := hwrong
  have hmore : seg.size > seg.headerSize := by
    rw [payload_eq_nil_iff] at hdata
    omega
  -- the segment is stored
  have hstored : packetData { k with packet := none } seg = some k' := by
    simp only [packetRest, hseg, packetRst, hrst, Bool.false_and, Bool.false_eq_true, if_false] at hr
    obtain ⟨k₁, hk₁, hr⟩ := Option.bind_eq_some_iff.1 hr
    cases hk₁
    simp only [hlive, hsyn, hfin, if_false, Bool.false_eq_true, hmore, or_true, if_true] at hr
    exact hr
  unfold packetData at hstored
  rw [if_pos hseq, if_neg (Nat.not_lt.2 hroom)] at hstored
  split_ifs at hstored with hshort
  obtain ⟨units, hunits, hack⟩ := Option.bind_eq_some_iff.1 hstored
  have hrecv := (ackOut_recvSide hack).1
  have hlen := payloadSize_eq (hsized seg hseg) (Nat.le_of_not_lt hshort)
  have hsame : units = k.semRecvFetch := signal_of_terminated hterm hunits
  have hbalanced := h.balanced
  have hpos : 0 < seg.payloadSize := hlen ▸ List.length_pos_iff.2 hdata
  rw [hrecv]
  simp only [RecvSide.Balanced, RecvSide.reserved, recvSide, hsame] at hbalanced ⊢
  have hroom' : seg.payloadSize ≤ k.cntRecvPut := hroom
  generalize seg.payloadSize = size at hpos hroom' ⊢
  omega

/-! ## Calls that fail -/

theorem sameBytes_recvWait (h : Accounted k.recvSide queue)
    (hright : CountsRight k (.recvWait i giveUp)) (hr : k.recvWait i giveUp = some k')
    (hfails : Fails k k') : SameBytes k.recvSide k'.recvSide := by
  obtain ⟨len, size, units, hcall, hwait, he⟩ := TCPSocket.recvWait_recvSide hr
  have hsum : units.left + size.toInt.toNat = k.semRecvFetch.left := by
    refine (h.sound.waitGen_right (fun hnone hleft => ?_) hwait).2
    subst hnone
    exact hright len hcall hleft
  rcases he with ⟨r, hsize, -, he⟩ | ⟨-, -, he⟩
  · rw [he]
    refine ⟨rfl, rfl, rfl, ?_⟩
    show units.left = k.semRecvFetch.left
    omega
  · obtain ⟨e, hresults⟩ := hfails
    have hsame : k'.recvResults = k.recvResults := congrArg RecvSide.recvResults he
    exact absurd (hsame.symm.trans hresults) (by simp)

end Steps

/-! ## Runs -/

section Runs

variable {k k' : TCPSocket} {op : SockOp}

theorem recvInv_create (srcport dstport : UInt16) : RecvInv (CreateTCPSocket srcport dstport) := by
  have hvalid : (newUnits 0).Valid := show (-1 : ℤ) ≤ (0 : Int32).toInt by decide
  have hmarked : (newUnits 0).count = -1 → (newUnits 0).terminated = true := by decide
  have hsize : 0 < TCP_BUFFER_SIZE := by decide
  have hnone : (CreateTCPSocket srcport dstport).packet = none := rfl
  refine ⟨fun seg h => ?_, [], ?_, ⟨hvalid, hmarked⟩, rfl⟩
  · cases hnone.symm.trans h
  · exact ⟨Ring.Holds.empty hsize, rfl, hvalid, rfl, le_rfl⟩

theorem RecvInv.step (h : RecvInv k) (hright : CountsRight k op) (hstep : recvSystem.step k op k') :
    RecvInv k' := by
  obtain ⟨hsized, segs, hstep⟩ := hstep
  obtain ⟨queue, hacc⟩ := h.accounted
  refine ⟨fun seg hseg => ?_, ?_⟩
  · by_cases hop : op = .packetRest
    · subst hop
      cases (packetRest_packet (of_map_nil hstep).1).symm.trans hseg
    · rcases step_packet hop hstep with hsame | ⟨seg', rfl, hnew⟩
      · exact h.sized seg (hsame ▸ hseg)
      · obtain rfl : seg' = seg := Option.some.inj (hnew.symm.trans hseg)
        exact hsized
  · by_cases hop : op.Elsewhere
    · exact ⟨queue, step_elsewhere hop hstep ▸ hacc⟩
    cases op with
    | recvfrom flags len =>
      cases hstep
      exact ⟨queue, hacc.recvfrom⟩
    | recvWait i giveUp => exact ⟨queue, hacc.recvWait hright (of_map_nil hstep).1⟩
    | recvCopy i => exact hacc.recvCopy (of_map_nil hstep).1
    | packetRest => exact hacc.packetRest h.sized hright (of_map_nil hstep).1
    | _ => exact absurd trivial hop

/-- The accounts are right after a step exactly if it counts right. -/
theorem RecvInv.balanced_iff (h : RecvInv k) (hstep : recvSystem.step k op k') :
    k'.recvSide.Balanced ↔ CountsRight k op := by
  constructor
  · intro hbalanced
    by_contra hwrong
    obtain ⟨-, segs, hstep⟩ := hstep
    obtain ⟨queue, hacc⟩ := h.accounted
    cases op with
    | recvWait i giveUp =>
      exact not_balanced_recvWait hacc hwrong (of_map_nil hstep).1 hbalanced
    | packetRest =>
      exact not_balanced_packetRest hacc h.sized hwrong (of_map_nil hstep).1 hbalanced
    | _ => exact hwrong trivial
  · intro hright
    obtain ⟨queue, hacc⟩ := (h.step hright hstep).accounted
    exact hacc.balanced

theorem RecvInv.sameBytes (h : RecvInv k) (hright : CountsRight k op)
    (hstep : recvSystem.step k op k') (hfails : Fails k k') :
    SameBytes k.recvSide k'.recvSide := by
  obtain ⟨-, segs, hstep⟩ := hstep
  obtain ⟨queue, hacc⟩ := h.accounted
  by_cases hop : op.Elsewhere
  · rw [step_elsewhere hop hstep]
    exact ⟨rfl, rfl, rfl, rfl⟩
  have hresults : k'.recvResults = k.recvResults → False := fun hsame => by
    obtain ⟨e, hresults⟩ := hfails
    exact absurd (hsame.symm.trans hresults) (by simp)
  cases op with
  | recvfrom flags len =>
    cases hstep
    rcases recvfrom_recvSide (k := k) flags len with ⟨r, -, he⟩ | he
    · rw [he]
      exact ⟨rfl, rfl, rfl, rfl⟩
    · rw [he]
      exact ⟨rfl, rfl, rfl, rfl⟩
  | recvWait i giveUp => exact sameBytes_recvWait hacc hright (of_map_nil hstep).1 hfails
  | recvCopy i =>
    obtain ⟨size, -, he⟩ := recvCopy_recvSide (of_map_nil hstep).1
    obtain ⟨e, hresults⟩ := hfails
    have hok := (congrArg RecvSide.recvResults he).symm.trans hresults
    cases List.append_cancel_left hok
  | packetRest =>
    obtain ⟨seg, -, heffect⟩ := packetRest_effect (of_map_nil hstep).1
    cases heffect with
    | nothing hrecv => exact (hresults (congrArg RecvSide.recvResults hrecv)).elim
    | syn hfirst hlive hsyn hrecv => exact (hresults (congrArg RecvSide.recvResults hrecv)).elim
    | fin hlive hsyn hfin hrst hseq hunits hrecv =>
      exact (hresults (congrArg RecvSide.recvResults hrecv)).elim
    | data hsyn hfin hpush hseq hroom hsize hunits hrecv =>
      exact (hresults (congrArg RecvSide.recvResults hrecv)).elim
  | _ => exact absurd trivial hop

/-- The accounts of a socket: they are right, every byte stored was returned or can be had, and the
steps that come next leave it so if and only if they count right, those of calls that fail with all
bytes as they were. -/
structure RecvCounted (k : TCPSocket) : Prop where
  balanced : k.recvSide.Balanced
  accounted : ∃ queue, Accounted k.recvSide queue
  step_iff : ∀ op k', recvSystem.step k op k' → (k'.recvSide.Balanced ↔ CountsRight k op)
  failed : ∀ op k', recvSystem.step k op k' → CountsRight k op → Fails k k' →
    SameBytes k.recvSide k'.recvSide

/-- In every state of a run whose steps count right the accounts are right. -/
theorem tcpsock_recv_counted (h : recvSystem.ReachesBy CountsRight k) : RecvCounted k := by
  have hinv : RecvInv k := h.invariant (fun k ⟨src, dst, hk⟩ => hk ▸ recvInv_create src dst)
    fun _ _ _ h hright hstep => h.step hright hstep
  obtain ⟨queue, hacc⟩ := hinv.accounted
  exact ⟨hacc.balanced, ⟨queue, hacc⟩, fun _ _ hstep => hinv.balanced_iff hstep,
    fun _ _ hstep hright => hinv.sameBytes hright hstep⟩

end Runs

/-! ## Two runs -/

/-- A step whose segment has a size, if it is one. -/
def TCPSocket.stepSized (k : TCPSocket) (op : SockOp) : Option TCPSocket :=
  if op.Sized then (k.step op).map Prod.fst else none

/-- The same, where no call asks for a negative number of bytes and no FIN was accepted. -/
def TCPSocket.stepCounted (k : TCPSocket) (op : SockOp) : Option TCPSocket :=
  if k.recvs.all (fun
      | .wait len => decide (0 ≤ (Int32.ofNat len).toInt)
      | .copy _ => true) && !k.semRecvFetch.terminated then
    k.stepSized op
  else none

theorem stepSized_step {k k' : TCPSocket} {op : SockOp} (h : k.stepSized op = some k') :
    recvSystem.step k op k' := by
  unfold TCPSocket.stepSized at h
  split_ifs at h with hsized
  obtain ⟨⟨k₁, segs⟩, hstep, rfl⟩ := Option.map_eq_some_iff.1 h
  exact ⟨hsized, segs, hstep⟩

theorem stepCounted_step {k k' : TCPSocket} {op : SockOp} (h : k.stepCounted op = some k') :
    CountsRight k op ∧ recvSystem.step k op k' := by
  unfold TCPSocket.stepCounted at h
  split_ifs at h with hcheck
  refine ⟨?_, stepSized_step h⟩
  simp only [Bool.and_eq_true, List.all_eq_true, Bool.not_eq_true'] at hcheck
  obtain ⟨hrecvs, hterm⟩ := hcheck
  cases op with
  | recvWait i giveUp =>
    cases giveUp with
    | some e => trivial
    | none =>
      intro len hlen _
      have := of_decide_eq_true (hrecvs _ (List.mem_of_getElem? hlen))
      omega
  | packetRest =>
    intro seg _ hset
    rw [hterm] at hset
    cases hset
  | _ => trivial

/-- A socket is accepted, a byte arrives for it, and a call asks for `len` bytes. -/
def askFor (len : ℕ) : List SockOp :=
  [.accept 1000 500, .packetAck (segmentFor 500 24 [65]), .packetRest, .recvfrom 0 len,
    .recvWait 0 none]

/-- A call asks for four bytes, and has taken the one that there is. -/
theorem tcpsock_recv_counted_one : ∃ k,
    (askFor 4).foldlM TCPSocket.stepCounted (CreateTCPSocket 20480 50000) = some k ∧
      RecvCounted k ∧ k.cntRecvPut = 65534 ∧ k.recvs = [.copy 1] := by
  have hrun : ((askFor 4).foldlM TCPSocket.stepCounted (CreateTCPSocket 20480 50000)).map
      (fun k => (k.cntRecvPut, k.recvs)) = some (65534, [.copy 1]) := by decide
  obtain ⟨k, hk, he⟩ := Option.map_eq_some_iff.1 hrun
  obtain ⟨hcnt, hrecvs⟩ := Prod.mk.inj he
  have hreach : recvSystem.ReachesBy CountsRight k :=
    System.ReachesBy.foldlM (fun _ _ _ => stepCounted_step) (.init ⟨_, _, rfl⟩) hk
  exact ⟨k, hk, tcpsock_recv_counted hreach, hcnt, hrecvs⟩

/-- A call asks for 2³¹ bytes: it fails, and the number of units is wrong afterwards. -/
theorem tcpsock_recv_not_counted : ∃ k, recvSystem.Reachable k ∧
    k.recvResults = [.error (-Int32.ofNat (2 ^ 31))] ∧ ¬ k.recvSide.Balanced := by
  have hrun : ((askFor (2 ^ 31)).foldlM TCPSocket.stepSized (CreateTCPSocket 20480 50000)).map
      (fun k => (k.recvResults, k.cntRecvPut + k.semRecvFetch.left + k.recvSide.reserved)) =
        some ([.error (-Int32.ofNat (2 ^ 31))], 65534) := by decide
  obtain ⟨k, hk, he⟩ := Option.map_eq_some_iff.1 hrun
  obtain ⟨hresults, hsum⟩ := Prod.mk.inj he
  refine ⟨k, ?_, hresults, fun hbalanced => ?_⟩
  · exact System.ReachesBy.foldlM (fun _ _ _ h => ⟨trivial, stepSized_step h⟩)
      (.init ⟨_, _, rfl⟩) hk
  · have h : 65534 = TCP_BUFFER_SIZE := hsum.symm.trans hbalanced
    exact absurd h (by decide)

end Glidix.Net
