import Glidix.Ipc.UnixSocket

/-!
# The messages of a sequenced-packet socket

A message in the queue is counted by the semaphore, or a call holds its unit.  A peek gives its unit back
with `semSignal2`, which does nothing after the peer has closed and terminated the semaphore.  If no peek
does that, then all messages come out once and in order before the end of the file.
-/

namespace Glidix.Ipc

open Glidix.Thread

@[simp] theorem Side.other_other (side : Side) : side.other.other = side := by
  cases side <;> rfl

theorem Side.eq_or_other (side side' : Side) : side' = side ∨ side' = side.other := by
  cases side <;> cases side' <;> decide

theorem Side.other_ne (side : Side) : side.other ≠ side := by
  cases side <;> decide

/-- The units that a call has taken from the semaphore of a socket. -/
def SeqCall.held (side : Side) : SeqCall → ℕ
  | .take side' _ _ _ => if side' = side then 1 else 0
  | _ => 0

/-! ## One socket -/

/-- Every message of the queue is counted by the semaphore or by one of the `held` units, and the queue
is what was sent and not received. -/
structure SeqSocket.Accounted (s : SeqSocket) (held : ℕ) : Prop where
  sound : s.semMsgIn.Sound
  units : s.semMsgIn.left + held = s.messages.length
  order : s.sent = s.received ++ s.messages

namespace SeqSocket

variable {s : SeqSocket} {held : ℕ} {semMsgIn : SemUnits} {giveUp : Option GiveUp} {n : Int32}
  {msg : Message} {rest : List Message}

theorem Accounted.put (h : s.Accounted held) (hlive : s.semMsgIn.terminated = false)
    (hroom : s.semMsgIn.left + 1 < 2 ^ 31) (hsem : s.semMsgIn.signal 1 = some semMsgIn) :
    Accounted { s with
      semMsgIn, messages := s.messages ++ [msg], sent := s.sent ++ [msg] } held := by
  obtain ⟨hsound, -, hleft⟩ := h.sound.signal (n := 1) (by decide) hroom hsem
  rw [hlive] at hleft
  have hone : (1 : Int32).toInt.toNat = 1 := rfl
  refine ⟨hsound, ?_, ?_⟩
  · have := h.units
    simp only [List.length_append, List.length_singleton, hleft, Bool.false_eq_true, if_false]
    omega
  · simp only [h.order, List.append_assoc]

/-- `semWaitGen` gives one unit, or none; it reports the end of the file only when there are no units
left. -/
theorem Accounted.wait (h : s.Accounted held)
    (hwait : s.semMsgIn.waitGen 1 giveUp = some (n, semMsgIn)) :
    (Accounted { s with semMsgIn } (if ¬ n < 0 ∧ n ≠ 0 then held + 1 else held)) ∧
      semMsgIn.terminated = s.semMsgIn.terminated ∧
      (n = 0 → s.semMsgIn.left = 0 ∧ s.semMsgIn.terminated = true) := by
  obtain ⟨hsound, hsum, hterm, hle, hzero, -⟩ := h.sound.waitGen (fun _ => by decide) hwait
  have hone : n.toInt ≤ 1 := hle (by decide)
  have hunits := h.units
  refine ⟨⟨hsound, ?_, h.order⟩, hterm, fun hn => hzero (by rw [hn]; rfl)⟩
  simp only
  split_ifs with hgot
  · have hneg : ¬ n.toInt < 0 := fun hl =>
      hgot.1 (Int32.lt_iff_toInt_lt.2 (by rwa [Int32.toInt_zero]))
    have hne : n.toInt ≠ 0 := fun he => hgot.2 (Int32.toInt_inj.1 he)
    omega
  · have hnone : n.toInt ≤ 0 := by
      by_contra hpos
      refine hgot ⟨fun hl => ?_, fun he => ?_⟩
      · rw [Int32.lt_iff_toInt_lt, Int32.toInt_zero] at hl
        omega
      · rw [he, Int32.toInt_zero] at hpos
        omega
    omega

theorem Accounted.take (h : s.Accounted (held + 1)) (hmessages : s.messages = msg :: rest) :
    Accounted { s with messages := rest, received := s.received ++ [msg] } held := by
  refine ⟨h.sound, ?_, ?_⟩
  · have := h.units
    rw [hmessages, List.length_cons] at this
    simp only
    omega
  · rw [h.order, hmessages]
    exact List.append_cons ..

theorem Accounted.peek (h : s.Accounted (held + 1)) (hlive : s.semMsgIn.terminated = false)
    (hroom : s.semMsgIn.left + 1 < 2 ^ 31) (hsem : s.semMsgIn.signal 1 = some semMsgIn) :
    Accounted { s with semMsgIn } held := by
  obtain ⟨hsound, -, hleft⟩ := h.sound.signal (n := 1) (by decide) hroom hsem
  rw [hlive] at hleft
  have hone : (1 : Int32).toInt.toNat = 1 := rfl
  refine ⟨hsound, ?_, h.order⟩
  have := h.units
  simp only [hleft, Bool.false_eq_true, if_false]
  omega

/-- A call that holds a unit finds the next message. -/
theorem Accounted.next (h : s.Accounted (held + 1)) :
    ∃ msg rest, s.messages = msg :: rest ∧ s.sent[s.received.length]? = some msg := by
  have hunits := h.units
  obtain ⟨msg, rest, hmessages⟩ := List.exists_cons_of_length_pos (l := s.messages) (by omega)
  refine ⟨msg, rest, hmessages, ?_⟩
  rw [h.order, hmessages, List.getElem?_append_right le_rfl, Nat.sub_self]
  rfl

theorem Accounted.terminate (h : s.Accounted held)
    (hsem : s.semMsgIn.terminate = some semMsgIn) : Accounted { s with semMsgIn } held := by
  obtain ⟨hsound, hleft, -⟩ := h.sound.terminate hsem
  exact ⟨hsound, hleft ▸ h.units, h.order⟩

/-- Without units and calls that hold one, all was received. -/
theorem Accounted.all_received (h : s.Accounted 0) (hleft : s.semMsgIn.left = 0) :
    s.received = s.sent := by
  have hunits := h.units
  have hnil : s.messages = [] := List.length_eq_zero_iff.1 (by omega)
  rw [h.order, hnil, List.append_nil]

end SeqSocket

/-! ## The pair -/

namespace SeqPair

variable {p q : SeqPair} {r : SeqResult} {i : ℕ} {side : Side} {giveUp : Option GiveUp}
  {calls : List SeqCall} {s : SeqSocket} {c : SeqCall}

@[simp] theorem ends_setEnd_self : (p.setEnd side s).ends side = s := Function.update_self ..

theorem ends_setEnd_ne {side' : Side} (hne : side' ≠ side) :
    (p.setEnd side s).ends side' = p.ends side' := Function.update_of_ne hne ..

/-- Both sockets are accounted for, the calls use open descriptions, and a semaphore is terminated
only when the other socket is closed. -/
structure Kept (p : SeqPair) : Prop where
  ends : ∀ side, (p.ends side).Accounted (tally (SeqCall.held side) p.calls)
  calls : ∀ c ∈ p.calls, (p.ends c.side).file = .opened
  live : ∀ side, (p.ends side.other).semMsgIn.terminated = true → (p.ends side).file = .closed

theorem Kept.of_calls (h : p.Kept)
    (hheld : ∀ side, tally (SeqCall.held side) calls = tally (SeqCall.held side) p.calls)
    (hcalls : ∀ c ∈ calls, (p.ends c.side).file = .opened) : Kept { p with calls } :=
  ⟨fun side => (hheld side).symm ▸ h.ends side, hcalls, h.live⟩

/-- One socket changes, but neither its description nor the mark of its semaphore. -/
theorem Kept.setEnd (side : Side) (h : p.Kept) (hs : s.Accounted (tally (SeqCall.held side) calls))
    (hheld : ∀ side', side' ≠ side →
      tally (SeqCall.held side') calls = tally (SeqCall.held side') p.calls)
    (hcalls : ∀ c ∈ calls, (p.ends c.side).file = .opened) (hfile : s.file = (p.ends side).file)
    (hterm : s.semMsgIn.terminated = (p.ends side).semMsgIn.terminated) :
    Kept { p.setEnd side s with calls } := by
  have hfiles : ∀ side', ((p.setEnd side s).ends side').file = (p.ends side').file := fun side' => by
    obtain rfl | hne := eq_or_ne side' side
    · rw [ends_setEnd_self, hfile]
    · rw [ends_setEnd_ne hne]
  have hterms : ∀ side', ((p.setEnd side s).ends side').semMsgIn.terminated =
      (p.ends side').semMsgIn.terminated := fun side' => by
    obtain rfl | hne := eq_or_ne side' side
    · rw [ends_setEnd_self, hterm]
    · rw [ends_setEnd_ne hne]
  refine ⟨fun side' => ?_, fun c hc => (hfiles c.side).trans (hcalls c hc),
    fun side' ht => (hfiles side').trans (h.live side' ((hterms _).symm.trans ht))⟩
  show SeqSocket.Accounted ((p.setEnd side s).ends side') (tally _ calls)
  obtain rfl | hne := eq_or_ne side' side
  · rwa [ends_setEnd_self]
  · rw [ends_setEnd_ne hne, hheld side' hne]
    exact h.ends side'

theorem Kept.eraseIdx_calls (h : p.Kept) :
    ∀ c ∈ p.calls.eraseIdx i, (p.ends c.side).file = .opened :=
  fun c hc => h.calls c ((List.eraseIdx_sublist _ i).subset hc)

/-- The units held by the other calls. -/
theorem held_eraseIdx (side : Side) (hcall : p.calls[i]? = some c) :
    tally (SeqCall.held side) (p.calls.eraseIdx i) + c.held side =
      tally (SeqCall.held side) p.calls := tally_eraseIdx hcall

theorem held_take {len : ℕ} {peek : Bool} {addrlen : Option ℕ} {side' : Side} (hne : side' ≠ side) :
    (SeqCall.take side len peek addrlen).held side' = 0 := if_neg hne.symm

theorem Kept.cons (h : p.Kept) (hfile : (p.ends c.side).file = .opened)
    (hheld : ∀ side, c.held side = 0) : Kept { p with calls := c :: p.calls } := by
  refine h.of_calls (fun side => ?_) fun c' hc' => ?_
  · rw [tally_cons, hheld, Nat.zero_add]
  · obtain rfl | hc' := List.mem_cons.1 hc'
    · exact hfile
    · exact h.calls c' hc'

theorem Kept.sendto {payload : List UInt8} (h : p.Kept)
    (hs : p.sendto side payload = some (r, q)) : q.Kept := by
  obtain ⟨hfile, ⟨-, rfl⟩ | ⟨-, rfl⟩⟩ := sendto_cases hs
  · exact h
  · exact h.cons hfile fun _ => rfl

theorem Kept.recvfrom {len : ℕ} {peek : Bool} {addrlen : Option ℕ} (h : p.Kept)
    (hs : p.recvfrom side len peek addrlen = some (r, q)) : q.Kept := by
  obtain ⟨hfile, ⟨-, rfl⟩ | ⟨-, rfl⟩⟩ := recvfrom_cases hs
  · exact h
  · exact h.cons hfile fun _ => rfl

/-- While a message is being sent, the semaphore that counts it is live. -/
theorem Kept.live_of_send {message : Message} (h : p.Kept)
    (hcall : p.calls[i]? = some (.send side message)) :
    (p.ends side.other).semMsgIn.terminated = false := by
  refine Bool.eq_false_iff.2 fun hterm => ?_
  have hclosed := h.live side hterm
  have hopened : (p.ends side).file = .opened := h.calls _ (List.mem_of_getElem? hcall)
  rw [hopened] at hclosed
  cases hclosed

theorem Kept.sendPut (h : p.Kept)
    (hfit : ∀ c ∈ p.calls[i]?, (p.ends c.side.other).semMsgIn.left + 1 < 2 ^ 31)
    (hs : p.sendPut i = some (r, q)) : q.Kept := by
  obtain ⟨side, message, hcall, hq⟩ := sendPut_cases hs
  have hheld : ∀ side', tally (SeqCall.held side') (p.calls.eraseIdx i) =
      tally (SeqCall.held side') p.calls := fun _ => held_eraseIdx _ hcall
  obtain ⟨-, rfl⟩ | ⟨semMsgIn, hsem, -, rfl⟩ := hq
  · exact h.of_calls hheld h.eraseIdx_calls
  · have hlive := h.live_of_send hcall
    have hroom := hfit (.send side message) hcall
    rw [SeqCall.side] at hroom
    refine h.setEnd side.other ?_ (fun side' _ => hheld side') h.eraseIdx_calls rfl
      (SemUnits.signal_terminated hsem)
    rw [hheld]
    exact (h.ends side.other).put hlive hroom hsem

theorem Kept.recvWait (h : p.Kept) (hs : p.recvWait i giveUp = some (r, q)) : q.Kept := by
  obtain ⟨side, len, peek, addrlen, n, semMsgIn, hcall, hwait, hq⟩ := recvWait_cases hs
  obtain ⟨hacc, hterm, -⟩ := (h.ends side).wait hwait
  have hopened : (p.ends side).file = .opened := h.calls _ (List.mem_of_getElem? hcall)
  obtain ⟨hnone, rfl⟩ | ⟨hneg, hne, -, rfl⟩ := hq
  · have hheld : ∀ side', tally (SeqCall.held side') (p.calls.eraseIdx i) =
        tally (SeqCall.held side') p.calls := fun _ => held_eraseIdx _ hcall
    refine h.setEnd side ?_ (fun side' _ => hheld side') h.eraseIdx_calls rfl hterm
    rw [if_neg fun hgot => hnone.elim (fun hn => hgot.1 hn.1) fun hn => hgot.2 hn.1] at hacc
    rw [hheld]
    exact hacc
  · have hset : ∀ side', tally (SeqCall.held side') (p.calls.set i (.take side len peek addrlen)) =
        tally (SeqCall.held side') p.calls + (SeqCall.take side len peek addrlen).held side' :=
      fun side' => tally_set (p := SeqCall.held side') hcall
    have hown : (SeqCall.take side len peek addrlen).held side = 1 := if_pos rfl
    rw [if_pos ⟨hneg, hne⟩] at hacc
    refine h.setEnd side ?_ (fun side' hside => ?_) (fun c hc => ?_) rfl hterm
    · rw [hset, hown]
      exact hacc
    · rw [hset, held_take hside, Nat.add_zero]
    · obtain hc | rfl := List.mem_or_eq_of_mem_set hc
      · exact h.calls c hc
      · exact hopened

/-- The units of a socket, when a call is about to take a message. -/
theorem Kept.ends_take {len : ℕ} {peek : Bool} {addrlen : Option ℕ} (h : p.Kept)
    (hcall : p.calls[i]? = some (.take side len peek addrlen)) :
    (p.ends side).Accounted (tally (SeqCall.held side) (p.calls.eraseIdx i) + 1) := by
  have hheld : _ + (if side = side then 1 else 0) = _ := held_eraseIdx side hcall
  rw [if_pos rfl] at hheld
  exact hheld ▸ h.ends side

theorem Kept.recvTake (h : p.Kept)
    (hfit : ∀ c ∈ p.calls[i]?, ∀ side len addrlen, c = .take side len true addrlen →
      (p.ends side).semMsgIn.terminated = false ∧ (p.ends side).semMsgIn.left + 1 < 2 ^ 31)
    (hs : p.recvTake i = some (r, q)) : q.Kept := by
  obtain ⟨side, len, peek, addrlen, hcall, hq⟩ := recvTake_cases hs
  have hacc := h.ends_take hcall
  have hheld : ∀ side', side' ≠ side → tally (SeqCall.held side') (p.calls.eraseIdx i) =
      tally (SeqCall.held side') p.calls := fun side' hne => by
    have herase := held_eraseIdx side' hcall
    rwa [held_take hne, Nat.add_zero] at herase
  obtain hnil | ⟨msg, rest, hmessages, -, ⟨rfl, semMsgIn, hsem, rfl⟩ | ⟨-, rfl⟩⟩ := hq
  · obtain ⟨msg, rest, hcons, -⟩ := hacc.next
    rw [hnil] at hcons
    cases hcons
  · obtain ⟨hlive, hroom⟩ := hfit _ hcall _ _ _ rfl
    exact h.setEnd side (hacc.peek hlive hroom hsem) hheld h.eraseIdx_calls rfl
      (SemUnits.signal_terminated hsem)
  · exact h.setEnd side (hacc.take hmessages) hheld h.eraseIdx_calls rfl rfl

/-- The description of a socket goes on to be closed. -/
theorem Kept.setFile (h : p.Kept) (hcalls : ∀ c ∈ p.calls, c.side ≠ side)
    (hsem : s.semMsgIn = (p.ends side).semMsgIn)
    (hmessages : s.messages = (p.ends side).messages) (hsent : s.sent = (p.ends side).sent)
    (hreceived : s.received = (p.ends side).received)
    (hfile : (p.ends side).file ≠ .closed) : (p.setEnd side s).Kept := by
  refine ⟨fun side' => ?_, fun c hc => ?_, fun side' hterm => ?_⟩
  · obtain rfl | hne := eq_or_ne side' side
    · obtain ⟨hsound, hunits, horder⟩ := h.ends side'
      rw [ends_setEnd_self]
      exact ⟨hsem ▸ hsound, hsem ▸ hmessages ▸ hunits, hsent ▸ hreceived ▸ hmessages ▸ horder⟩
    · rw [ends_setEnd_ne hne]
      exact h.ends side'
  · rw [ends_setEnd_ne (hcalls c hc)]
    exact h.calls c hc
  · have hother : (p.ends side'.other).semMsgIn.terminated = true := by
      obtain hside | hne := eq_or_ne side'.other side
      · rw [hside, ends_setEnd_self, hsem] at hterm
        rwa [hside]
      · rwa [ends_setEnd_ne hne] at hterm
    have hclosed := h.live side' hother
    obtain rfl | hne := eq_or_ne side' side
    · exact absurd hclosed hfile
    · rwa [ends_setEnd_ne hne]

theorem Kept.close (h : p.Kept) (hs : p.close side = some (r, q)) : q.Kept := by
  obtain ⟨hfile, hcalls, ⟨-, rfl⟩ | ⟨-, -, rfl⟩⟩ := close_cases hs <;>
    exact h.setFile hcalls rfl rfl rfl rfl (by rw [hfile]; nofun)

/-- Nothing is terminated twice, and the messages of the peer stay. -/
theorem Kept.closePeer (h : p.Kept) (hs : p.closePeer side = some (r, q)) : q.Kept ∧ r ≠ .panic := by
  obtain ⟨hfile, ⟨hnone, -, -⟩ | ⟨semMsgIn, hsem, rfl, rfl⟩⟩ := closePeer_cases hs
  · have hclosed := h.live side (SemUnits.terminate_eq_none hnone)
    rw [hfile] at hclosed
    cases hclosed
  · have hcalls : ∀ c ∈ p.calls, c.side ≠ side := fun c hc he => by
      have hopened := h.calls c hc
      rw [he, hfile] at hopened
      cases hopened
    have hkept : (p.setEnd side { p.ends side with file := .closed }).Kept :=
      h.setFile hcalls rfl rfl rfl rfl (by rw [hfile]; nofun)
    refine ⟨⟨fun side' => ?_, fun c hc => ?_, fun side' hterm => ?_⟩, nofun⟩
    · obtain rfl | hne := eq_or_ne side' side.other
      · rw [ends_setEnd_self]
        exact (h.ends _).terminate hsem
      · rw [ends_setEnd_ne hne]
        exact hkept.ends side'
    · obtain he | hne := eq_or_ne c.side side.other
      · rw [he, ends_setEnd_self, ← he]
        exact h.calls c hc
      · rw [ends_setEnd_ne hne]
        exact hkept.calls c hc
    · obtain rfl | rfl := side.eq_or_other side'
      · rw [ends_setEnd_ne (Side.other_ne side').symm, ends_setEnd_self]
      · rw [Side.other_other, ends_setEnd_ne (Side.other_ne side).symm, ends_setEnd_self] at hterm
        rw [ends_setEnd_self]
        exact h.live side.other (by rwa [Side.other_other])

end SeqPair

/-! ## Runs -/

/-- A unit is given back to a semaphore that is live, and the count does not overflow. -/
def SeqCall.GivesBack (p : SeqPair) : SeqCall → Prop
  | .take side _ true _ => (p.ends side).semMsgIn.terminated = false ∧
      (p.ends side).semMsgIn.left + 1 < 2 ^ 31
  | _ => True

/-- The end of the file is not reported while another call holds a unit. -/
def SeqCall.EndsLast (p : SeqPair) : SeqCall → Prop
  | .wait side _ _ _ => (p.ends side).semMsgIn.terminated = true → (p.ends side).semMsgIn.left = 0 →
      tally (SeqCall.held side) p.calls = 0
  | _ => True

instance (p : SeqPair) : DecidablePred (SeqCall.GivesBack p)
  | .take _ _ true _ => inferInstanceAs (Decidable (_ ∧ _))
  | .take _ _ false _ | .send .. | .wait .. => inferInstanceAs (Decidable True)

instance (p : SeqPair) : DecidablePred (SeqCall.EndsLast p)
  | .wait .. => inferInstanceAs (Decidable (_ → _ → _))
  | .send .. | .take .. => inferInstanceAs (Decidable True)

/-- What `recvfrom` shows: the first message that was not received, which goes out unless this is a
peek. -/
def SeqCall.Returns (p q : SeqPair) (r : SeqResult) : SeqCall → Prop
  | .take side len peek addrlen => ∃ msg,
      (p.ends side).sent[(p.ends side).received.length]? = some msg ∧
      r = .message (msg.payload.take len) (msg.src.take (realAddrLen msg.src addrlen)) ∧
      (q.ends side).received = (p.ends side).received ++ if peek then [] else [msg]
  | _ => False

namespace SeqPair

variable {p q : SeqPair} {r : SeqResult} {i : ℕ} {side : Side} {giveUp : Option GiveUp} {op : SeqOp}

/-- What a step must do for the messages to be accounted for. -/
def KeepsMessages (p : SeqPair) : SeqOp → Prop
  | .sendPut i => ∀ c ∈ p.calls[i]?, (p.ends c.side.other).semMsgIn.left + 1 < 2 ^ 31
  | .recvWait i _ => ∀ c ∈ p.calls[i]?, c.EndsLast p
  | .recvTake i => ∀ c ∈ p.calls[i]?, c.GivesBack p
  | _ => True

instance (p : SeqPair) : DecidablePred p.KeepsMessages
  | .sendPut i | .recvWait i _ | .recvTake i => inferInstanceAs (Decidable (∀ c ∈ p.calls[i]?, _))
  | .sendto .. | .recvfrom .. | .close .. | .closePeer .. => inferInstanceAs (Decidable True)

/-- What a step may show: the end of the file only when all was received, the next message, and no
panic. -/
def Delivers (p q : SeqPair) (r : SeqResult) : SeqOp → Prop
  | .recvWait i _ => r = .endOfFile → ∀ c ∈ p.calls[i]?,
      (p.ends c.side).received = (p.ends c.side).sent
  | .recvTake i => ∀ c ∈ p.calls[i]?, c.Returns p q r
  | .closePeer _ => r ≠ .panic
  | _ => True

theorem Kept.step (h : p.Kept) (hkeeps : p.KeepsMessages op) (hs : p.step op = some (r, q)) :
    q.Kept := by
  cases op with
  | sendto side payload => exact h.sendto hs
  | sendPut i => exact h.sendPut hkeeps hs
  | recvfrom side len peek addrlen => exact h.recvfrom hs
  | recvWait i giveUp => exact h.recvWait hs
  | recvTake i =>
    refine h.recvTake (fun c hc side len addrlen he => ?_) hs
    subst he
    exact hkeeps _ hc
  | close side => exact h.close hs
  | closePeer side => exact (h.closePeer hs).1

theorem Kept.deliversWait (h : p.Kept) (hlast : ∀ c ∈ p.calls[i]?, c.EndsLast p)
    (hs : p.recvWait i giveUp = some (r, q)) : p.Delivers q r (.recvWait i giveUp) := by
  rintro rfl c hc
  obtain ⟨side, len, peek, addrlen, n, semMsgIn, hcall, hwait, hq⟩ := recvWait_cases hs
  obtain rfl := Option.some.inj (hcall.symm.trans hc)
  obtain ⟨⟨-, hr⟩ | ⟨hzero, -⟩, -⟩ | ⟨-, -, hr, -⟩ := hq
  · cases hr
  · obtain ⟨-, -, hend⟩ := (h.ends side).wait hwait
    obtain ⟨hleft, hterm⟩ := hend hzero
    have hnone : tally (SeqCall.held side) p.calls = 0 := hlast _ hcall hterm hleft
    exact (hnone ▸ h.ends side).all_received hleft
  · cases hr

theorem Kept.deliversTake (h : p.Kept) (hs : p.recvTake i = some (r, q)) :
    p.Delivers q r (.recvTake i) := by
  intro c hc
  obtain ⟨side, len, peek, addrlen, hcall, hq⟩ := recvTake_cases hs
  obtain rfl := Option.some.inj (hcall.symm.trans hc)
  obtain ⟨msg, rest, hmessages, hnext⟩ := (h.ends_take hcall).next
  rw [hmessages] at hq
  obtain hnil | ⟨msg', rest', hcons, rfl, hq⟩ := hq
  · cases hnil
  · cases hcons
    refine ⟨msg, hnext, rfl, ?_⟩
    obtain ⟨rfl, semMsgIn, -, rfl⟩ | ⟨rfl, rfl⟩ := hq
    · rw [ends_setEnd_self]
      exact (List.append_nil _).symm
    · rw [ends_setEnd_self]
      rfl

end SeqPair

/-! ## Main result -/

theorem seqInit_kept {p : SeqPair} (h : seqSystem.init p) : p.Kept := by
  obtain ⟨left, right, rfl⟩ := h
  have hsound : SemUnits.Sound ⟨0, false⟩ := ⟨SemUnits.valid_of_nonneg (by decide), by decide⟩
  refine ⟨fun side => ?_, nofun, fun side hterm => ?_⟩
  · cases side <;> exact ⟨hsound, rfl, rfl⟩
  · cases side <;> cases hterm

theorem reaches_kept {p : SeqPair} (h : seqSystem.ReachesBy SeqPair.KeepsMessages p) : p.Kept := by
  refine h.invariant (I := SeqPair.Kept) (fun _ => seqInit_kept) ?_
  rintro p op q hkept hkeeps ⟨r, hs⟩
  exact hkept.step hkeeps hs

/-- If no peek gives its unit back after the peer has closed, then all messages are queued, or received
in the order in which they were sent, every message of the queue has a unit, and the calls show what
they may. -/
theorem seq_delivered {p : SeqPair} (h : seqSystem.ReachesBy SeqPair.KeepsMessages p) :
    (∀ side, (p.ends side).Accounted (tally (SeqCall.held side) p.calls)) ∧
      ∀ op r q, p.KeepsMessages op → p.step op = some (r, q) → p.Delivers q r op := by
  have hkept := reaches_kept h
  refine ⟨hkept.ends, fun op r q hkeeps hs => ?_⟩
  cases op with
  | sendto | sendPut | recvfrom | close => trivial
  | recvWait i giveUp => exact hkept.deliversWait hkeeps hs
  | recvTake i => exact hkept.deliversTake hs
  | closePeer side => exact (hkept.closePeer hs).2

/-- A message is sent, its sender closes, and it is received. -/
theorem seq_delivered_message : ∃ p : SeqPair,
    (∀ side, (p.ends side).Accounted (tally (SeqCall.held side) p.calls)) ∧
      (p.ends .right).received.map Message.payload = [[97]] := by
  have hrun : ((seqPair [1, 0] [1, 0]).exec SeqPair.KeepsMessages [.sendto .left [97], .sendPut 0,
      .recvfrom .right 8 true none, .recvWait 0 none, .recvTake 0, .close .left, .closePeer .left,
      .recvfrom .right 8 false none, .recvWait 0 none, .recvTake 0]).any
        (fun p => (p.ends .right).received.map Message.payload = [[97]]) = true := by decide
  obtain ⟨p, hp, hend⟩ := (Option.any_eq_true ..).1 hrun
  exact ⟨p, (seq_delivered (SeqPair.reachesBy_exec (.init ⟨_, _, rfl⟩) hp)).1, of_decide_eq_true hend⟩

/-- The peer closes while a peek holds the only unit, and the message that is still in the queue is
never received. -/
theorem peeked_message_lost : ∃ p, seqSystem.Reachable p ∧
    (∃ q, p.step (.recvWait 0 none) = some (.endOfFile, q)) ∧
    p.calls = [.wait .right 8 false none] ∧ (p.ends .right).received ≠ (p.ends .right).sent := by
  have hrun : ((seqPair [1, 0] [1, 0]).exec (fun _ _ => True) [.sendto .left [97], .sendPut 0,
      .recvfrom .right 8 true none, .recvWait 0 none, .close .left, .closePeer .left, .recvTake 0,
      .recvfrom .right 8 false none]).any (fun p =>
        (p.step (.recvWait 0 none)).any (fun s => s.1 = .endOfFile) ∧
          p.calls = [.wait .right 8 false none] ∧ (p.ends .right).received ≠ (p.ends .right).sent) =
      true := by decide
  obtain ⟨p, hp, hend⟩ := (Option.any_eq_true ..).1 hrun
  obtain ⟨hstep, hrest⟩ := of_decide_eq_true hend
  obtain ⟨⟨r, q⟩, hs, hr⟩ := (Option.any_eq_true ..).1 hstep
  cases of_decide_eq_true hr
  exact ⟨p, SeqPair.reachesBy_exec (.init ⟨_, _, rfl⟩) hp, ⟨q, hs⟩, hrest⟩

end Glidix.Ipc
