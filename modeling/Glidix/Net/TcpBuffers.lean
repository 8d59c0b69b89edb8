import Mathlib.Algebra.Order.BigOperators.Group.List
import Mathlib.Data.List.Perm.Basic
import Glidix.Net.TcpSteps

/-!
# The buffers of a TCP socket

The send buffer holds the bytes that were accepted and are not in a segment yet, and the receive
buffer those that arrived and were not returned yet.  The units of the semaphores, together with
what calls in progress have taken of them, are never more than the room, or the bytes, that there
are.
-/

namespace Glidix.Net

open Glidix.Thread

/-- The room that a call of `tcpsock_sendto` has taken and not filled yet. -/
def SendCall.reserved : SendCall → ℕ
  | .copy _ _ status => status
  | _ => 0

/-- The bytes that a call of `tcpsock_sendto` has put in and not signalled yet. -/
def SendCall.unposted : SendCall → ℕ
  | .post _ _ gotCount => gotCount
  | _ => 0

/-- No more room is taken than there are bytes. -/
def SendCall.Fits : SendCall → Prop
  | .copy _ buffer status => status ≤ buffer.length
  | _ => True

/-- The bytes that a call of `tcpsock_recvfrom` has taken and not copied yet. -/
def RecvCall.reserved : RecvCall → ℕ
  | .copy size => size
  | .wait _ => 0

/-- The bytes that the thread has taken and not put in a segment yet. -/
def TcpThread.inHand : TcpThread → ℕ
  | .fetched count => count.toInt.toNat
  | _ => 0

/-- The send buffer holds the queue. -/
structure SendBuf (v : SendSide) (inHand : ℕ) (queue : List UInt8) : Prop where
  ring : Ring.Holds TCP_BUFFER_SIZE v.bufSend v.idxSendFetch v.idxSendPut queue
  validPut : v.semSendPut.Valid
  validFetch : v.semSendFetch.Valid
  room : v.semSendPut.left + (v.sends.map SendCall.reserved).sum + queue.length ≤ TCP_BUFFER_SIZE
  avail : v.semSendFetch.left + inHand + (v.sends.map SendCall.unposted).sum ≤ queue.length
  fits : ∀ c ∈ v.sends, c.Fits

/-- The bytes that the calls of `tcpsock_recvfrom` returned. -/
def RecvSide.returned (v : RecvSide) : List UInt8 :=
  v.recvResults.flatMap TCPSocket.resultBytes

/-- The receive buffer holds the queue. -/
structure RecvBuf (v : RecvSide) (queue : List UInt8) : Prop where
  ring : Ring.Holds TCP_BUFFER_SIZE v.bufRecv v.idxRecvFetch v.idxRecvPut queue
  received : v.received = v.returned ++ queue
  valid : v.semRecvFetch.Valid
  room : v.cntRecvPut + queue.length = TCP_BUFFER_SIZE
  avail : v.semRecvFetch.left + (v.recvs.map RecvCall.reserved).sum ≤ queue.length

/-! ## Calls in progress -/

section Calls

variable {α : Type} {l : List α} {i : ℕ} {c : α}

theorem sum_eraseIdx (f : α → ℕ) (h : l[i]? = some c) :
    (l.map f).sum = f c + ((l.eraseIdx i).map f).sum := by
  obtain ⟨hi, rfl⟩ := List.getElem?_eq_some_iff.1 h
  rw [← ((List.getElem_cons_eraseIdx_perm hi).map f).sum_eq, List.map_cons, List.sum_cons]

end Calls

theorem toInt_ofNat_of_le {n : ℕ} (h : n ≤ TCP_BUFFER_SIZE) : (Int32.ofNat n).toInt = n := by
  unfold TCP_BUFFER_SIZE at h
  exact Int32.toInt_ofNat_of_lt (by omega)

/-! ## Sending -/

section Send

variable {v : SendSide} {k k' : TCPSocket} {inHand : ℕ} {queue : List UInt8} {i w : ℕ}
  {buffer : List UInt8} {giveUp : Option GiveUp}

/-- The sums over the calls when one of them goes. -/
theorem sum_eraseIdx_le {α : Type} (f : α → ℕ) (l : List α) (i : ℕ) :
    ((l.eraseIdx i).map f).sum ≤ (l.map f).sum :=
  ((List.eraseIdx_sublist l i).map f).sum_le_sum fun _ _ => Nat.zero_le _

theorem fits_eraseIdx {l : List SendCall} (h : ∀ c ∈ l, c.Fits) : ∀ c ∈ l.eraseIdx i, c.Fits :=
  fun c hc => h c ((List.eraseIdx_sublist l i).subset hc)

theorem SendBuf.cons_wait (h : SendBuf v inHand queue) :
    SendBuf { v with sends := .wait w buffer :: v.sends } inHand queue := by
  have hroom := h.room
  have havail := h.avail
  refine ⟨h.ring, h.validPut, h.validFetch, ?_, ?_, List.forall_mem_cons.2 ⟨trivial, h.fits⟩⟩
  · simp only [List.map_cons, List.sum_cons, SendCall.reserved]
    omega
  · simp only [List.map_cons, List.sum_cons, SendCall.unposted]
    omega

theorem SendBuf.sendto {flags : Int32} (h : SendBuf k.sendSide inHand queue)
    (hs : k.sendto flags buffer giveUp = some k') : SendBuf k'.sendSide inHand queue := by
  rcases TCPSocket.sendto_sendSide hs with he | he
  · rwa [he]
  · rw [he]
    exact h.cons_wait

theorem sendCount_le (buffer : List UInt8) :
    TCPSocket.sendCount buffer ≤ TCP_BUFFER_SIZE ∧ TCPSocket.sendCount buffer ≤ buffer.length := by
  unfold TCPSocket.sendCount
  split_ifs <;> omega

theorem not_lt_zero_iff {n : Int32} : ¬ n < 0 ↔ 0 ≤ n.toInt := by
  rw [Int32.lt_iff_toInt_lt, Int32.toInt_zero, Int.not_lt]

theorem SendBuf.sendWait (h : SendBuf k.sendSide inHand queue)
    (hs : k.sendWait i giveUp = some k') : SendBuf k'.sendSide inHand queue := by
  obtain ⟨w, buffer, status, units, hcall, hwait, he⟩ := TCPSocket.sendWait_sendSide hs
  obtain ⟨hle, hlen⟩ := sendCount_le buffer
  have hcount := toInt_ofNat_of_le hle
  have hroom := h.room
  have havail := h.avail
  have hreserved := sum_eraseIdx SendCall.reserved hcall
  have hunposted := sum_eraseIdx SendCall.unposted hcall
  simp only [TCPSocket.sendSide] at hroom havail
  simp only [SendCall.reserved, SendCall.unposted] at hreserved hunposted
  have hspec := SemUnits.waitGen_spec h.validPut (by omega) hwait
  rcases he with he | ⟨hpos, he⟩
  · have hunits : units.Valid ∧ units.left ≤ k.semSendPut.left := by
      rcases hspec with ⟨-, rfl⟩ | ⟨-, -, hvalid, hsum, -⟩
      · exact ⟨h.validPut, le_rfl⟩
      · exact ⟨hvalid, hsum ▸ Nat.le_add_right _ _⟩
    rw [he]
    exact ⟨h.ring, hunits.1, h.validFetch, by simp only; omega,
      by simp only [TCPSocket.sendSide]; omega, fits_eraseIdx h.fits⟩
  · rcases hspec with ⟨hneg, -⟩ | ⟨hne, -, hvalid, hsum, hmax, -⟩
    · have := not_lt_zero_iff.1 hpos
      omega
    have hn0 : (Int32.ofNat (TCPSocket.sendCount buffer)).toInt ≠ 0 :=
      fun he => hne (Int32.toInt_inj.1 he)
    have hstatus := hmax (by omega)
    have hsum' : units.left + status.toInt.toNat = k.semSendPut.left := hsum
    rw [he]
    refine ⟨h.ring, hvalid, h.validFetch, ?_, ?_,
      List.forall_mem_cons.2 ⟨?_, fits_eraseIdx h.fits⟩⟩
    · simp only [List.map_cons, List.sum_cons, SendCall.reserved]
      omega
    · simp only [TCPSocket.sendSide, List.map_cons, List.sum_cons, SendCall.unposted]
      omega
    · show status.toInt.toNat ≤ buffer.length
      omega

/-- The bytes of the call are put behind the queue. -/
theorem SendBuf.sendCopy (h : SendBuf k.sendSide inHand queue) (hs : k.sendCopy i = some k') :
    ∃ bytes, SendBuf k'.sendSide inHand (queue ++ bytes) ∧ k'.accepted = k.accepted ++ bytes := by
  obtain ⟨w, buffer, status, hcall, he⟩ := TCPSocket.sendCopy_sendSide hs
  have hfits : status ≤ buffer.length := h.fits _ (List.mem_of_getElem? hcall)
  have hlen : (buffer.take status).length = status := List.length_take_of_le hfits
  have hroom := h.room
  have havail := h.avail
  have hreserved := sum_eraseIdx SendCall.reserved hcall
  have hunposted := sum_eraseIdx SendCall.unposted hcall
  simp only [TCPSocket.sendSide] at hroom havail
  simp only [SendCall.reserved, SendCall.unposted] at hreserved hunposted
  refine ⟨buffer.take status, ?_, congrArg SendSide.accepted he⟩
  rw [he]
  refine ⟨h.ring.put (by rw [hlen]; omega), h.validPut, h.validFetch, ?_, ?_,
    List.forall_mem_cons.2 ⟨trivial, fits_eraseIdx h.fits⟩⟩
  · simp only [TCPSocket.sendSide, List.map_cons, List.sum_cons, SendCall.reserved,
      List.length_append, hlen]
    omega
  · simp only [TCPSocket.sendSide, List.map_cons, List.sum_cons, SendCall.unposted,
      List.length_append, hlen]
    omega

theorem SendBuf.sendPost (h : SendBuf k.sendSide inHand queue) (hs : k.sendPost i = some k') :
    SendBuf k'.sendSide inHand queue := by
  obtain ⟨w, buffer, gotCount, units, hcall, hunits, he⟩ := TCPSocket.sendPost_sendSide hs
  have hroom := h.room
  have havail := h.avail
  have hreserved := sum_eraseIdx SendCall.reserved hcall
  have hunposted := sum_eraseIdx SendCall.unposted hcall
  simp only [TCPSocket.sendSide] at hroom havail
  simp only [SendCall.reserved, SendCall.unposted] at hreserved hunposted
  have hgot := toInt_ofNat_of_le (show gotCount ≤ TCP_BUFFER_SIZE by omega)
  have hsize : TCP_BUFFER_SIZE < 2 ^ 31 := by decide
  obtain ⟨hvalid, hleft, -⟩ := SemUnits.signal_spec h.validFetch (by omega)
    (show k.semSendFetch.left + _ < _ by omega) hunits
  have hleft' : units.left ≤ k.semSendFetch.left + (Int32.ofNat gotCount).toInt.toNat := hleft
  have herase : SendBuf { k.sendSide with semSendFetch := units, sends := k.sends.eraseIdx i }
      inHand queue :=
    ⟨h.ring, h.validPut, hvalid, by simp only [TCPSocket.sendSide]; omega, by simp only; omega,
      fits_eraseIdx h.fits⟩
  rcases he with he | he
  · rwa [he]
  · rw [he]
    exact herase.cons_wait

theorem SendBuf.shutdown {rd wr : Bool} (h : SendBuf k.sendSide inHand queue)
    (hs : k.shutdown rd wr = some k') : SendBuf k'.sendSide inHand queue := by
  rcases TCPSocket.shutdown_sendSide hs with he | ⟨units, hunits, he⟩
  · rwa [he]
  · obtain ⟨hvalid, hleft, -⟩ := SemUnits.terminate_spec h.validPut hunits
    have hleft' : units.left = k.semSendPut.left := hleft
    have hroom := h.room
    rw [he]
    exact ⟨h.ring, hvalid, h.validFetch, by simp only [hleft']; exact hroom, h.avail, h.fits⟩

theorem SendBuf.close (h : SendBuf k.sendSide inHand queue) (hs : k.close = some k') :
    SendBuf k'.sendSide inHand queue := by
  obtain ⟨units, hunits, he⟩ := TCPSocket.close_sendSide hs
  obtain ⟨hvalid, hleft, -⟩ := SemUnits.terminate_spec h.validFetch hunits
  have hleft' : units.left = k.semSendFetch.left := hleft
  have havail := h.avail
  rw [he]
  exact ⟨h.ring, h.validPut, hvalid, h.room, by simp only [hleft']; exact havail, h.fits⟩

/-- The thread takes units of the bytes. -/
theorem SendBuf.fetch {count : Int32} {units : SemUnits} (h : SendBuf v 0 queue)
    (hwait : v.semSendFetch.waitGen 512 none = some (count, units)) :
    SendBuf { v with semSendFetch := units } count.toInt.toNat queue ∧ 0 ≤ count.toInt := by
  have havail := h.avail
  obtain ⟨hvalid, hpos, hsum⟩ := SemUnits.waitGen_none h.validFetch (by decide) hwait
  exact ⟨⟨h.ring, h.validPut, hvalid, h.room, by simp only; omega, h.fits⟩, hpos⟩

/-- The thread puts the bytes it has taken in a segment. -/
theorem SendBuf.build {count : Int32} {units : SemUnits}
    (h : SendBuf v count.toInt.toNat queue) (hcount : 0 ≤ count.toInt)
    (hunits : v.semSendPut.signal count = some units) :
    (Ring.get TCP_BUFFER_SIZE v.bufSend v.idxSendFetch count.toInt.toNat).1 =
        queue.take count.toInt.toNat ∧ count.toInt.toNat ≤ queue.length ∧
      SendBuf { v with
        idxSendFetch := (Ring.get TCP_BUFFER_SIZE v.bufSend v.idxSendFetch count.toInt.toNat).2
        semSendPut := units } 0 (queue.drop count.toInt.toNat) := by
  have hroom := h.room
  have havail := h.avail
  have hle : count.toInt.toNat ≤ queue.length := by omega
  obtain ⟨htake, hring⟩ := h.ring.get hle
  have hsize : TCP_BUFFER_SIZE < 2 ^ 31 := by decide
  obtain ⟨hvalid, hleft, -⟩ := SemUnits.signal_spec h.validPut hcount (by omega) hunits
  refine ⟨htake, hle, hring, hvalid, h.validFetch, ?_, ?_, h.fits⟩
  · simp only [List.length_drop]
    omega
  · simp only [List.length_drop]
    omega

end Send

/-! ## Receiving -/

section Recv

variable {v : RecvSide} {k k' : TCPSocket} {queue : List UInt8} {i : ℕ} {giveUp : Option GiveUp}

theorem RecvBuf.recvfrom {flags : Int32} {len : ℕ} (h : RecvBuf k.recvSide queue) :
    RecvBuf (k.recvfrom flags len).recvSide queue := by
  rcases TCPSocket.recvfrom_recvSide (k := k) flags len with ⟨r, hr, he⟩ | he
  · rw [he]
    refine ⟨h.ring, ?_, h.valid, h.room, h.avail⟩
    rw [h.received]
    exact congrArg (· ++ queue) (by simp [RecvSide.returned, TCPSocket.recvSide, hr])
  · have havail := h.avail
    rw [he]
    refine ⟨h.ring, h.received, h.valid, h.room, ?_⟩
    simp only [List.map_cons, List.sum_cons, RecvCall.reserved, Nat.zero_add]
    exact havail

/-- A call asks for a number of bytes that is not negative as an `int`, or is -1, or finds none. -/
def RecvCall.LenOk (units : SemUnits) : RecvCall → Prop
  | .wait len => units.left ≠ 0 → -1 ≤ (Int32.ofNat len).toInt
  | .copy _ => True

/-- A call takes the units that it returns. -/
theorem RecvBuf.recvWait (h : RecvBuf k.recvSide queue)
    (hunits : ∀ len size units, k.recvs[i]? = some (.wait len) →
      k.semRecvFetch.waitGen (.ofNat len) giveUp = some (size, units) →
        units.Valid ∧ units.left + size.toInt.toNat = k.semRecvFetch.left)
    (hr : k.recvWait i giveUp = some k') : RecvBuf k'.recvSide queue := by
  obtain ⟨len, size, units, hcall, hwait, he⟩ := TCPSocket.recvWait_recvSide hr
  have hreserved := sum_eraseIdx RecvCall.reserved hcall
  have havail := h.avail
  simp only [TCPSocket.recvSide, RecvCall.reserved] at havail hreserved
  replace hunits := hunits len size units hcall hwait
  rcases he with ⟨r, -, hempty, he⟩ | ⟨-, -, he⟩
  · rw [he]
    refine ⟨h.ring, ?_, hunits.1, h.room, ?_⟩
    · rw [h.received]
      exact congrArg (· ++ queue) (by
        simp [RecvSide.returned, TCPSocket.recvSide, hempty])
    · simp only
      omega
  · rw [he]
    refine ⟨h.ring, h.received, hunits.1, h.room, ?_⟩
    simp only [List.map_cons, List.sum_cons, RecvCall.reserved]
    omega

/-- A call returns bytes from the front of the queue. -/
theorem RecvBuf.recvCopy (h : RecvBuf k.recvSide queue) (hr : k.recvCopy i = some k') :
    ∃ queue', RecvBuf k'.recvSide queue' := by
  obtain ⟨size, hcall, he⟩ := TCPSocket.recvCopy_recvSide hr
  have hreserved := sum_eraseIdx RecvCall.reserved hcall
  have havail := h.avail
  have hroom := h.room
  simp only [TCPSocket.recvSide, RecvCall.reserved] at havail hreserved hroom
  have hle : size ≤ queue.length := by omega
  obtain ⟨htake, hring⟩ := h.ring.get hle
  refine ⟨queue.drop size, ?_⟩
  rw [he]
  refine ⟨hring, ?_, h.valid, ?_, ?_⟩
  · have htake' : (Ring.get TCP_BUFFER_SIZE k.bufRecv k.idxRecvFetch size).1 = queue.take size :=
      htake
    rw [h.received]
    simp [RecvSide.returned, TCPSocket.recvSide, htake', TCPSocket.resultBytes]
  · simp only [List.length_drop]
    omega
  · simp only [TCPSocket.recvSide, List.length_drop]
    omega

/-- The payload of a segment is put behind the queue. -/
theorem RecvBuf.store {payload : List UInt8} {size : ℕ} {units : SemUnits} (h : RecvBuf v queue)
    (hsize : size = payload.length) (hroom : size ≤ v.cntRecvPut)
    (hunits : v.semRecvFetch.signal (.ofNat size) = some units) :
    RecvBuf { v with
      bufRecv := (Ring.put TCP_BUFFER_SIZE v.bufRecv v.idxRecvPut payload).1
      cntRecvPut := v.cntRecvPut - size
      semRecvFetch := units
      idxRecvPut := (Ring.put TCP_BUFFER_SIZE v.bufRecv v.idxRecvPut payload).2
      received := v.received ++ payload } (queue ++ payload) := by
  have hr := h.room
  have havail := h.avail
  have hint := toInt_ofNat_of_le (show size ≤ TCP_BUFFER_SIZE by omega)
  have hmax : TCP_BUFFER_SIZE < 2 ^ 31 := by decide
  obtain ⟨hvalid, hleft, -⟩ := SemUnits.signal_spec h.valid (by omega) (by omega) hunits
  refine ⟨h.ring.put (by omega), ?_, hvalid, ?_, ?_⟩
  · rw [h.received, List.append_assoc]
    rfl
  · simp only [List.length_append]
    omega
  · simp only [List.length_append]
    omega

theorem RecvBuf.terminate {units : SemUnits} (h : RecvBuf v queue)
    (hunits : v.semRecvFetch.terminate = some units) :
    RecvBuf { v with semRecvFetch := units } queue := by
  obtain ⟨hvalid, hleft, -⟩ := SemUnits.terminate_spec h.valid hunits
  have havail := h.avail
  exact ⟨h.ring, h.received, hvalid, h.room, by simp only [hleft]; exact havail⟩

end Recv

end Glidix.Net
