import Mathlib.Data.List.Dedup
import Glidix.Thread.Kill

/-!
# Who gets a signal

`signalPid` delivers a signal once to each process that it is meant for, if in each of them a thread that
would take it may be signalled, has not terminated and has a free slot, and if they are no more than 101.
The null signal is delivered nowhere, and the kernel dereferences a null pointer if a process is selected.
-/

namespace Glidix.Thread

namespace SigThread

variable {t u : SigThread} {siginfo x : Siginfo} {nonblocked : Bool} {currentTime : ℕ}

/-- The thread neither ignores the signal nor, if that matters, blocks it. -/
def Willing (t : SigThread) (signo : ℤ) (nonblocked : Bool) : Prop :=
  signo ∈ [SIGKILL, SIGTHKILL, SIGSTOP] ∨
    (t.sigdisp signo).sa_handler ≠ SIG_IGN ∧ ¬(nonblocked ∧ t.sigmask &&& sigbit signo ≠ 0)

instance (t : SigThread) (signo : ℤ) (nonblocked : Bool) : Decidable (t.Willing signo nonblocked) :=
  inferInstanceAs (Decidable (_ ∨ _))

/-- `sendSignalEx` puts the signal into a slot. -/
def Accepts (t : SigThread) (signo : ℤ) (nonblocked : Bool) : Prop :=
  t.terminated = false ∧ signo ≠ SIGCONT ∧ t.Willing signo nonblocked ∧
    t.pendingSet ≠ BitVec.allOnes 64

instance (t : SigThread) (signo : ℤ) (nonblocked : Bool) : Decidable (t.Accepts signo nonblocked) :=
  inferInstanceAs (Decidable (_ ∧ _))

theorem pending_wake : t.wake.pending = t.pending := by
  unfold wake
  split <;> rfl

theorem sendSignalWith_spec {signal : SigThread → Option SigThread}
    (hsignal : ∀ t, ∃ u, signal t = some u ∧ u.pending.count x = t.pending.count x)
    (hrange : 0 ≤ siginfo.si_signo ∧ siginfo.si_signo < SIG_NUM) (hwake : siginfo.si_signo ≠ SIGTHWAKE) :
    ∃ r u, t.sendSignalWith signal siginfo nonblocked = some (r, u) ∧
      (r = 0 ↔ t.Accepts siginfo.si_signo nonblocked) ∧
      u.pending.count x = (if t.Accepts siginfo.si_signo nonblocked then siginfo ::ₘ t.pending
        else t.pending).count x := by
  obtain ⟨v, hv, hset, hpending, hterm, hmask, hdisp⟩ :
      ∃ v, v = (if t.traced then { t with traced := false, waiting := true } else t) ∧
        v.pendingSet = t.pendingSet ∧ v.pending = t.pending ∧ v.terminated = t.terminated ∧
        v.sigmask = t.sigmask ∧ v.sigdisp = t.sigdisp := by
    refine ⟨_, rfl, ?_⟩
    split <;> exact ⟨rfl, rfl, rfl, rfl, rfl⟩
  have haccepts : t.Accepts siginfo.si_signo nonblocked ↔ v.Accepts siginfo.si_signo nonblocked := by
    unfold Accepts Willing
    rw [hset, hterm, hmask, hdisp]
  rw [if_congr haccepts rfl rfl, ← hpending]
  have hone : ¬(-1 : Int32) = 0 := by decide
  -- the thread is woken up and the signal is dropped
  have hdropped : ∀ {b : Int32}, b = -1 → ¬v.Accepts siginfo.si_signo nonblocked →
      ∃ r u, (signal v).map (fun t => (b, t)) = some (r, u) ∧
        (r = 0 ↔ t.Accepts siginfo.si_signo nonblocked) ∧
        u.pending.count x = (if v.Accepts siginfo.si_signo nonblocked then siginfo ::ₘ v.pending
          else v.pending).count x := by
    intro b hb hno
    obtain ⟨u, hu, hcount⟩ := hsignal v
    refine ⟨b, u, by rw [hu]; rfl, ?_, by rw [if_neg hno, hcount]⟩
    exact iff_of_false (hb ▸ hone) fun h => hno (haccepts.1 h)
  unfold sendSignalWith
  rw [if_neg (by omega)]
  simp only [← hv]
  by_cases h1 : v.terminated = true
  · have hno : ¬v.Accepts siginfo.si_signo nonblocked := fun h => by simp [h.1] at h1
    rw [if_pos h1, if_neg hno]
    exact ⟨-1, v, rfl, iff_of_false hone fun h => hno (haccepts.1 h), rfl⟩
  by_cases h2 : siginfo.si_signo = SIGCONT
  · rw [if_neg h1, if_pos h2]
    exact hdropped rfl fun h => h.2.1 h2
  rw [if_neg h1, if_neg h2, if_neg hwake]
  by_cases h3 : siginfo.si_signo ∉ [SIGKILL, SIGTHKILL, SIGSTOP] ∧
      (v.sigdisp siginfo.si_signo).sa_handler = SIG_IGN
  · rw [if_pos h3]
    exact hdropped rfl fun h => h.2.2.1.elim h3.1 fun h => h.1 h3.2
  rw [if_neg h3]
  by_cases h4 : siginfo.si_signo ∉ [SIGKILL, SIGTHKILL, SIGSTOP] ∧ nonblocked ∧
      v.sigmask &&& sigbit siginfo.si_signo ≠ 0
  · have hno : ¬v.Accepts siginfo.si_signo nonblocked := fun h =>
      h.2.2.1.elim h4.1 fun h => h.2 h4.2
    rw [if_pos h4, if_neg hno]
    exact ⟨-1, v, rfl, iff_of_false hone fun h => hno (haccepts.1 h), rfl⟩
  rw [if_neg h4]
  by_cases h5 : v.pendingSet = BitVec.allOnes 64
  · rw [if_pos h5]
    exact hdropped rfl fun h => h.2.2.2 h5
  have hyes : v.Accepts siginfo.si_signo nonblocked := by
    refine ⟨Bool.eq_false_iff.2 h1, h2, ?_, h5⟩
    unfold Willing
    tauto
  obtain ⟨i, hi⟩ := freeSlot_isSome h5
  obtain ⟨u, hu, hcount⟩ := hsignal (v.fill i siginfo)
  rw [if_neg h5, if_pos hyes, hi]
  refine ⟨0, u, by simp [hu], iff_of_true rfl (haccepts.2 hyes), ?_⟩
  rw [hcount, pending_fill (freeSlot_spec hi)]

theorem sendSignalWith_terminated {signal : SigThread → Option SigThread} {r : Int32}
    (hsignal : ∀ t u, signal t = some u → u.terminated = t.terminated)
    (h : t.sendSignalWith signal siginfo nonblocked = some (r, u)) : u.terminated = t.terminated := by
  have hmap : ∀ {w : SigThread} {b : Int32}, w.terminated = t.terminated →
      ((signal w).map fun t => (b, t)) = some (r, u) → u.terminated = t.terminated := fun hw hu => by
    obtain ⟨v, hv, he⟩ := Option.map_eq_some_iff.1 hu
    cases he
    exact (hsignal _ _ hv).trans hw
  unfold sendSignalWith at h
  obtain ⟨v, hv, hterm⟩ :
      ∃ v, v = (if t.traced then { t with traced := false, waiting := true } else t) ∧
        v.terminated = t.terminated := by
    refine ⟨_, rfl, ?_⟩
    split <;> rfl
  simp only [← hv] at h
  split_ifs at h
  · cases h
    exact hterm
  · exact hmap hterm h
  · exact hmap hterm h
  · exact hmap hterm h
  · cases h
    exact hterm
  · exact hmap hterm h
  · obtain ⟨i, hi, h⟩ := Option.bind_eq_some_iff.1 h
    exact hmap (w := v.fill i siginfo) hterm h

theorem terminated_wake : t.wake.terminated = t.terminated := by
  unfold wake
  split <;> rfl

theorem signalThread_terminated (h : t.signalThread currentTime = some u) :
    u.terminated = t.terminated := by
  unfold signalThread at h
  split at h
  · obtain ⟨⟨r, v⟩, hv, rfl⟩ := Option.map_eq_some_iff.1 h
    refine terminated_wake.trans (sendSignalWith_terminated (t := { t with alarmTime := 0 }) ?_ hv)
    intro t u ht
    obtain rfl := Option.some.inj ht
    exact terminated_wake
  · obtain rfl := Option.some.inj h
    exact terminated_wake

theorem sendSignalEx_terminated {r : Int32}
    (h : t.sendSignalEx currentTime siginfo nonblocked = some (r, u)) : u.terminated = t.terminated :=
  sendSignalWith_terminated (fun _ _ h => signalThread_terminated h) h

theorem signalThread_spec (hx : x.si_signo ≠ SIGALRM) :
    ∃ u, t.signalThread currentTime = some u ∧ u.pending.count x = t.pending.count x := by
  unfold signalThread
  split
  · have hne : x ≠ { si_signo := SIGALRM } := fun h => hx (by rw [h])
    obtain ⟨r, u, hu, -, hcount⟩ := @sendSignalWith_spec { t with alarmTime := 0 }
      { si_signo := SIGALRM } x false _ (fun t => ⟨t.wake, rfl, by rw [pending_wake]⟩) (by decide)
      (by decide)
    refine ⟨u.wake, by rw [hu]; rfl, ?_⟩
    rw [pending_wake, hcount]
    split
    · exact Multiset.count_cons_of_ne hne _
    · rfl
  · exact ⟨t.wake, rfl, by rw [pending_wake]⟩

/-- What `sendSignalEx` answers and which signal it adds to the pending ones. -/
theorem sendSignalEx_spec (hrange : 0 ≤ siginfo.si_signo ∧ siginfo.si_signo < SIG_NUM)
    (hwake : siginfo.si_signo ≠ SIGTHWAKE) (halarm : siginfo.si_signo ≠ SIGALRM) :
    ∃ r u, t.sendSignalEx currentTime siginfo nonblocked = some (r, u) ∧
      (r = 0 ↔ t.Accepts siginfo.si_signo nonblocked) ∧
      u.pending.count siginfo =
        t.pending.count siginfo + if t.Accepts siginfo.si_signo nonblocked then 1 else 0 := by
  obtain ⟨r, u, hu, hr, hcount⟩ :=
    @sendSignalWith_spec t siginfo siginfo nonblocked (signalThread · currentTime)
      (fun _ => signalThread_spec halarm) hrange hwake
  refine ⟨r, u, hu, hr, ?_⟩
  rw [hcount]
  split
  · rw [Multiset.count_cons_self]
  · rfl

end SigThread

namespace Kill

variable {creds : ℕ+ → Creds} {me t : KillThread} {pid : ℤ} {si : Siginfo} {ts ts' : List KillThread}
  {loop : KillLoop} {D : List ℕ+} {p q : ℕ+} {currentTime : ℕ}

/-! ## Receivers -/

section

variable (creds me pid) (signo : ℤ)

/-- The thread of the process `p` is sent the signal and takes it. -/
def takes (t : KillThread) (p : ℕ+) : Bool :=
  selects creds (mypgid creds me) pid p && canSendSignal creds me t signo false &&
    decide (t.sig.Accepts signo true)

/-- The processes that have a thread which takes the signal, in the order of the first such threads,
without those of the list `D`. -/
def receivers : List KillThread → List ℕ+ → List ℕ+
  | [], _ => []
  | t :: ts, D =>
    match t.process.filter fun p => takes creds me pid signo t p && p ∉ D with
    | none => receivers ts D
    | some p => p :: receivers ts (D ++ [p])

end

variable {signo : ℤ}

theorem takes_iff : takes creds me pid signo t p = true ↔
    (selects creds (mypgid creds me) pid p = true ∧ canSendSignal creds me t signo false = true) ∧
      t.sig.Accepts signo true := by
  rw [takes, Bool.and_eq_true_iff, Bool.and_eq_true_iff, decide_eq_true_iff]

theorem receivers_skip (h : ∀ p, t.process = some p → takes creds me pid signo t p = true → p ∈ D) :
    receivers creds me pid signo (t :: ts) D = receivers creds me pid signo ts D := by
  have hnone : (t.process.filter fun p => takes creds me pid signo t p && p ∉ D) = none := by
    refine Option.filter_eq_none_iff.2 fun p hp htakes => ?_
    obtain ⟨htakes, hD⟩ := (Bool.and_eq_true_iff ..).1 htakes
    exact of_decide_eq_true hD (h p hp htakes)
  rw [receivers, hnone]

theorem receivers_take (hp : t.process = some p) (htakes : takes creds me pid signo t p = true)
    (hD : p ∉ D) : receivers creds me pid signo (t :: ts) D =
      p :: receivers creds me pid signo ts (D ++ [p]) := by
  have hsome : (t.process.filter fun p => takes creds me pid signo t p && p ∉ D) = some p :=
    Option.filter_eq_some_iff.2 ⟨hp, by simp [htakes, hD]⟩
  rw [receivers, hsome]

theorem mem_receivers : p ∈ receivers creds me pid signo ts D ↔
    p ∉ D ∧ ∃ t ∈ ts, t.process = some p ∧ takes creds me pid signo t p = true := by
  induction ts generalizing D with
  | nil => simp [receivers]
  | cons t ts ih =>
    rw [receivers]
    split
    · next h =>
      have hno := Option.filter_eq_none_iff.1 h
      rw [ih, List.exists_mem_cons_iff]
      refine and_congr_right fun hD => (or_iff_right fun ht => ?_).symm
      exact hno p ht.1 (by simp [ht.2, hD])
    · next q h =>
      obtain ⟨hq, htakes⟩ := Option.filter_eq_some_iff.1 h
      obtain ⟨htakes, hD⟩ := (Bool.and_eq_true_iff ..).1 htakes
      have hD : q ∉ D := of_decide_eq_true hD
      rw [List.mem_cons, ih, List.exists_mem_cons_iff, List.mem_append, List.mem_singleton, not_or]
      by_cases hp : p = q
      · subst hp
        exact iff_of_true (.inl rfl) ⟨hD, .inl ⟨hq, htakes⟩⟩
      · have hne : t.process ≠ some p := fun h => hp (Option.some.inj (h.symm.trans hq))
        simp only [hp, hne, false_or, false_and, not_false_eq_true, and_true]

theorem nodup_receivers : (receivers creds me pid signo ts D).Nodup := by
  induction ts generalizing D with
  | nil => exact List.nodup_nil
  | cons t ts ih =>
    rw [receivers]
    split
    · exact ih
    · refine List.nodup_cons.2 ⟨fun h => ?_, ih⟩
      exact (mem_receivers.1 h).1 (List.mem_append_right _ (List.mem_singleton_self _))

/-! ## Loop -/

/-- The number of threads of a process with one more of the signal among their pending ones. -/
def received (si : Siginfo) (p : ℕ+) (ts ts' : List KillThread) : ℕ :=
  (ts.zip ts').countP fun x =>
    x.1.process = some p ∧ x.1.sig.pending.count si < x.2.sig.pending.count si

theorem received_cons {t t' : KillThread} : received si p (t :: ts) (t' :: ts') =
    received si p ts ts' +
      if t.process = some p ∧ t.sig.pending.count si < t'.sig.pending.count si then 1 else 0 := by
  simp only [received, List.zip_cons_cons, List.countP_cons, decide_eq_true_eq]

theorem received_cons_same {t t' : KillThread}
    (h : t'.sig.pending.count si = t.sig.pending.count si) :
    received si p (t :: ts) (t' :: ts') = received si p ts ts' := by
  rw [received_cons, if_neg fun hlt => Nat.lt_irrefl _ (h ▸ hlt.2), Nat.add_zero]

theorem received_cons_delivered {t t' : KillThread} (hp : t.process = some p)
    (h : t'.sig.pending.count si = t.sig.pending.count si + 1) :
    received si q (t :: ts) (t' :: ts') = received si q ts ts' + if q = p then 1 else 0 := by
  rw [received_cons]
  congr 1
  refine if_congr ?_ rfl rfl
  rw [hp, Option.some.injEq, h, eq_comm]
  exact and_iff_left (Nat.lt_succ_self _)

theorem received_self : received si p ts ts = 0 := by
  induction ts with
  | nil => rfl
  | cons t ts ih => rw [received_cons_same rfl, ih]

/-- A thread of a selected process may be signalled. -/
def Allowed (creds : ℕ+ → Creds) (me : KillThread) (pid signo : ℤ) (t : KillThread) : Prop :=
  ∃ p, t.process = some p ∧ selects creds (mypgid creds me) pid p = true ∧
    canSendSignal creds me t signo false = true

/-- A signal that may be sent at all does not make `sendSignalEx` panic. -/
theorem range_of_sendable (h : sendable signo = true) :
    (0 ≤ signo ∧ signo < SIG_NUM) ∧ signo ≠ SIGTHWAKE ∧ signo ≠ SIGALRM := by
  have hall : ∀ signo ∈ [SIGCONT, SIGHUP, SIGINT, SIGKILL, SIGQUIT, SIGSTOP, SIGTERM, SIGTSTP, SIGUSR1,
      SIGUSR2, 0], (0 ≤ signo ∧ signo < SIG_NUM) ∧ signo ≠ SIGTHWAKE ∧ signo ≠ SIGALRM := by decide
  exact hall signo (of_decide_eq_true h)

theorem sendable_of_canSendSignal (h : canSendSignal creds me t signo false = true) :
    sendable signo = true := by
  unfold canSendSignal at h
  split at h
  · next hno => exact absurd hno.2 Bool.false_ne_true
  · split at h
    · exact absurd h Bool.false_ne_true
    · next hsend => exact not_not.1 hsend

/-- The thread is of a process that the loop has not delivered the signal to. -/
def considers (creds : ℕ+ → Creds) (me : KillThread) (pid : ℤ) (loop : KillLoop) (t : KillThread) :
    Option ℕ+ :=
  t.process.filter fun p => selects creds (mypgid creds me) pid p && p ∉ loop.pidsDelivered

theorem signalLoop_skip {noperm : Bool} (hf : considers creds me pid loop t = none) :
    signalLoop creds currentTime me pid (some si) noperm (t :: ts) loop =
      (signalLoop creds currentTime me pid (some si) noperm ts loop).map fun r => (t :: r.1, r.2) := by
  rw [considers] at hf
  rw [signalLoop, hf]
  cases signalLoop creds currentTime me pid (some si) noperm ts loop <;> rfl

theorem signalLoop_deny {noperm : Bool} (hf : considers creds me pid loop t = some p)
    (hcan : canSendSignal creds me t si.si_signo noperm = false) :
    signalLoop creds currentTime me pid (some si) noperm (t :: ts) loop =
      (signalLoop creds currentTime me pid (some si) noperm ts { loop with errno := .EPERM }).map
        fun r => (t :: r.1, r.2) := by
  rw [considers] at hf
  rw [signalLoop, hf]
  simp only [Option.bind_eq_bind, Option.bind_some, if_pos hcan]
  cases signalLoop creds currentTime me pid (some si) noperm ts { loop with errno := .EPERM } <;> rfl

/-- If no thread may be signalled, nothing happens to the threads. -/
theorem signalLoop_denied {noperm : Bool}
    (hcan : ∀ t, canSendSignal creds me t si.si_signo noperm = false) :
    ∃ errno, signalLoop creds currentTime me pid (some si) noperm ts loop =
      some (ts, { loop with errno }) := by
  induction ts generalizing loop with
  | nil => exact ⟨loop.errno, signalLoop_nil creds⟩
  | cons t ts ih =>
    cases hf : considers creds me pid loop t with
    | none =>
      obtain ⟨errno, h⟩ := @ih loop
      exact ⟨errno, by rw [signalLoop_skip hf, h]; rfl⟩
    | some p =>
      obtain ⟨errno, h⟩ := @ih { loop with errno := .EPERM }
      exact ⟨errno, by rw [signalLoop_deny hf (hcan t), h]; rfl⟩

theorem signalLoop_send {r : Int32} {u : SigThread} (hf : considers creds me pid loop t = some p)
    (hcan : canSendSignal creds me t si.si_signo false = true)
    (hsend : t.sig.sendSignalEx currentTime si true = some (r, u)) :
    signalLoop creds currentTime me pid (some si) false (t :: ts) loop =
      if r = 0 ∧ loop.pidsDelivered.length = 100 then
        some ({ t with sig := u } :: ts, { loop with errno := .ENOMEM })
      else
        (signalLoop creds currentTime me pid (some si) false ts { loop with
          pidsDelivered := if r = 0 then loop.pidsDelivered ++ [p] else loop.pidsDelivered
          result := 0 }).map fun x => ({ t with sig := u } :: x.1, x.2) := by
  rw [considers] at hf
  rw [signalLoop, hf]
  simp only [Option.bind_eq_bind, Option.bind_some, hcan, Bool.true_eq_false, if_false, hsend]
  congr 1
  cases signalLoop creds currentTime me pid (some si) false ts { loop with
    pidsDelivered := if r = 0 then loop.pidsDelivered ++ [p] else loop.pidsDelivered
    result := 0 } <;> rfl

theorem signalLoop_spec (hD : loop.pidsDelivered.length ≤ 100)
    (hresult : loop.pidsDelivered ≠ [] → loop.result = 0) :
    ∃ ts' loop', signalLoop creds currentTime me pid (some si) false ts loop = some (ts', loop') ∧
      (∀ p, received si p ts ts' =
        if p ∈ (receivers creds me pid si.si_signo ts loop.pidsDelivered).take
          (101 - loop.pidsDelivered.length) then 1 else 0) ∧
      (loop'.result = 0 ↔ loop.result = 0 ∨ ∃ t ∈ ts, Allowed creds me pid si.si_signo t) := by
  induction ts generalizing loop with
  | nil => exact ⟨[], loop, signalLoop_nil creds, fun p => by simp [received, receivers], by simp⟩
  | cons t ts ih =>
    cases hf : considers creds me pid loop t with
    | none =>
      have hno := Option.filter_eq_none_iff.1 hf
      have hdone : ∀ p, t.process = some p → selects creds (mypgid creds me) pid p = true →
          p ∈ loop.pidsDelivered := fun p hp hsel => by
        by_contra hD
        exact hno p hp (by simp [hsel, hD])
      obtain ⟨ts', loop', hrun, hrec, hres⟩ := ih hD hresult
      refine ⟨t :: ts', loop', by rw [signalLoop_skip hf, hrun]; rfl, fun p => ?_, ?_⟩
      · rw [received_cons_same rfl, hrec, receivers_skip fun p hp htakes =>
          hdone p hp (takes_iff.1 htakes).1.1]
      · rw [hres, List.exists_mem_cons_iff, ← or_assoc]
        refine or_congr_left (or_iff_left_of_imp fun ⟨p, hp, hsel, _⟩ => ?_).symm
        exact hresult (List.ne_nil_of_mem (hdone p hp hsel))
    | some p =>
      obtain ⟨hp, hsel⟩ := Option.filter_eq_some_iff.1 hf
      obtain ⟨hsel, hnot⟩ := (Bool.and_eq_true_iff ..).1 hsel
      have hnot : p ∉ loop.pidsDelivered := of_decide_eq_true hnot
      by_cases hcan : canSendSignal creds me t si.si_signo false = true
      · obtain ⟨hrange, hwake, halarm⟩ := range_of_sendable (sendable_of_canSendSignal hcan)
        obtain ⟨r, u, hsend, hr, hcount⟩ := SigThread.sendSignalEx_spec (t := t.sig) hrange hwake halarm
        have hallowed : Allowed creds me pid si.si_signo t := ⟨p, hp, hsel, hcan⟩
        rw [signalLoop_send hf hcan hsend]
        by_cases haccepts : t.sig.Accepts si.si_signo true
        · have hr : r = 0 := hr.2 haccepts
          rw [receivers_take hp (takes_iff.2 ⟨⟨hsel, hcan⟩, haccepts⟩) hnot]
          rw [if_pos haccepts] at hcount
          by_cases hfull : loop.pidsDelivered.length = 100
          · rw [if_pos ⟨hr, hfull⟩, hfull]
            refine ⟨_, _, rfl, fun q => ?_, ?_⟩
            · have hcons : received si q (t :: ts) ({ t with sig := u } :: ts) =
                  received si q ts ts + if q = p then 1 else 0 := received_cons_delivered hp hcount
              rw [hcons, received_self, Nat.zero_add]
              simp
            · have hne : loop.pidsDelivered ≠ [] := fun h => by simp [h] at hfull
              exact iff_of_true (hresult hne) (.inl (hresult hne))
          · rw [if_neg fun h => hfull h.2, if_pos hr]
            have hlen : (loop.pidsDelivered ++ [p]).length = loop.pidsDelivered.length + 1 :=
              List.length_append
            obtain ⟨ts', loop', hrun, hrec, hres⟩ :=
              @ih { loop with pidsDelivered := loop.pidsDelivered ++ [p], result := 0 }
                (by simp only [hlen]; omega) fun _ => rfl
            rw [hrun]
            refine ⟨_, _, rfl, fun q => ?_, ?_⟩
            · have hcons : received si q (t :: ts) ({ t with sig := u } :: ts') =
                  received si q ts ts' + if q = p then 1 else 0 := received_cons_delivered hp hcount
              have hroom : 101 - loop.pidsDelivered.length = 100 - loop.pidsDelivered.length + 1 := by
                omega
              have hrest : 101 - (loop.pidsDelivered.length + 1) = 100 - loop.pidsDelivered.length := by
                omega
              simp only [hcons, hrec, hroom, hlen, hrest, List.take_succ_cons, List.mem_cons]
              by_cases hq : q = p
              · have hnotMem : q ∉ (receivers creds me pid si.si_signo ts
                    (loop.pidsDelivered ++ [p])).take (100 - loop.pidsDelivered.length) := fun h =>
                  (mem_receivers.1 (List.mem_of_mem_take h)).1
                    (List.mem_append_right _ (List.mem_singleton.2 hq))
                rw [if_neg hnotMem, if_pos hq, if_pos (Or.inl hq)]
              · simp only [hq, if_false, false_or, Nat.add_zero]
            · exact iff_of_true (hres.2 (.inl rfl)) (.inr ⟨t, List.mem_cons_self, hallowed⟩)
        · have hr : r ≠ 0 := fun h => haccepts (hr.1 h)
          obtain ⟨ts', loop', hrun, hrec, hres⟩ :=
            @ih { loop with result := 0 } hD fun _ => rfl
          rw [if_neg fun h => hr h.1, if_neg hr, hrun]
          refine ⟨_, _, rfl, fun p => ?_, ?_⟩
          · rw [if_neg haccepts, Nat.add_zero] at hcount
            have hcons : received si p (t :: ts) ({ t with sig := u } :: ts') = received si p ts ts' :=
              received_cons_same hcount
            rw [hcons, hrec, receivers_skip fun p _ htakes =>
              absurd (takes_iff.1 htakes).2 haccepts]
          · exact iff_of_true (hres.2 (.inl rfl)) (.inr ⟨t, List.mem_cons_self, hallowed⟩)
      · rw [signalLoop_deny hf (Bool.not_eq_true _ ▸ hcan)]
        obtain ⟨ts', loop', hrun, hrec, hres⟩ := @ih { loop with errno := .EPERM } hD hresult
        rw [hrun]
        refine ⟨_, _, rfl, fun p => ?_, ?_⟩
        · rw [received_cons_same rfl, hrec, receivers_skip fun p _ htakes =>
            absurd (takes_iff.1 htakes).1.2 hcan]
        · rw [hres, List.exists_mem_cons_iff]
          exact or_congr_right (or_iff_right fun ⟨_, _, _, h⟩ => hcan h).symm

/-- Without a siginfo the loop goes through if it considers no thread. -/
theorem signalLoop_null_some (h : ∀ t ∈ ts, considers creds me pid loop t = none) :
    signalLoop creds currentTime me pid none false ts loop = some (ts, loop) := by
  induction ts with
  | nil => exact signalLoop_nil creds
  | cons t ts ih =>
    have hf := h t List.mem_cons_self
    rw [considers] at hf
    rw [signalLoop, hf]
    simp only [Option.bind_eq_bind, ih fun t ht => h t (List.mem_cons_of_mem _ ht), Option.bind_some]

/-- A null pointer is dereferenced for the first thread that is considered. -/
theorem signalLoop_null_none (ht : t ∈ ts) (hf : considers creds me pid loop t = some p) :
    signalLoop creds currentTime me pid none false ts loop = none := by
  induction ts with
  | nil => cases ht
  | cons u ts ih =>
    rw [signalLoop]
    cases hu : u.process.filter fun p =>
        selects creds (mypgid creds me) pid p && p ∉ loop.pidsDelivered with
    | some q => rfl
    | none =>
      rcases List.mem_cons.1 ht with rfl | ht
      · cases hf.symm.trans hu
      · simp only [ih ht, Option.bind_eq_bind, Option.bind_none]

/-! ## Calls -/

/-- The argument of `signalPid` stands for the process: a process, the own group, all, or a group. -/
def Matches (creds : ℕ+ → Creds) (me : KillThread) (pid : ℤ) (p : ℕ+) : Prop :=
  if 0 < pid then (p : ℤ) = pid
  else if pid = 0 then ∃ q, me.process = some q ∧ (creds p).pgid = (creds q).pgid
  else pid = -1 ∨ ((creds p).pgid : ℤ) = -pid

theorem selects_iff : selects creds (mypgid creds me) pid p = true ↔ Matches creds me pid p := by
  have hp : (0 : ℤ) < (p : ℤ) := by exact_mod_cast p.pos
  have hg : (0 : ℤ) < ((creds p).pgid : ℤ) := by exact_mod_cast (creds p).pgid.pos
  unfold selects Matches
  rw [decide_eq_true_iff]
  split
  · omega
  · split
    · next hzero =>
      subst hzero
      unfold mypgid
      cases me.process with
      | none => simp
      | some q =>
        have hone : ¬(0 : ℤ) = -1 := by decide
        simp only [hone, Option.some.injEq, exists_eq_left', neg_zero, hp.ne', hg.ne', false_or, true_and]
        exact ⟨fun h => PNat.eq (by exact_mod_cast h), fun h => by rw [h]⟩
    · omega

namespace KillState

variable (s : KillState) (pid sig : ℤ)

/-- A thread of the process may be signalled. -/
def MaySignal (p : ℕ+) : Prop :=
  ∃ t ∈ s.threads, t.process = some p ∧ canSendSignal s.creds s.current t sig false = true

/-- The signal is meant for the process, may be sent to it, and one of its threads neither ignores nor
blocks it. -/
def Deserves (p : ℕ+) : Prop :=
  sig ≠ 0 ∧ Matches s.creds s.current pid p ∧ s.MaySignal sig p ∧
    ∃ t ∈ s.threads, t.process = some p ∧ t.sig.Willing sig true

/-- The call returns; exactly one thread of each process that deserves the signal has it among its pending
ones, and no thread of another process; and the call returns 0 exactly if it matches a process that may be
signalled or a zombie. -/
def Right (currentTime : ℕ) : Prop :=
  ∃ a, s.signalPid currentTime pid sig = some a ∧
    (∀ p, s.Deserves pid sig p → received (s.killInfo sig) p s.threads a.threads = 1) ∧
    (∀ p, ¬s.Deserves pid sig p → received (s.killInfo sig) p s.threads a.threads = 0) ∧
    (a.result = 0 ↔
      (∃ p, Matches s.creds s.current pid p ∧ s.MaySignal sig p) ∨ s.isZombie pid = true)

/-- The processes with a thread that is sent the signal and takes it. -/
def takers : List ℕ+ :=
  (s.threads.filterMap fun t =>
    t.process.filter fun p => takes s.creds s.current pid sig t p).dedup

/-- A null signal matches no process.  Any other signal finds, in each process that deserves it, a thread
that may be signalled and takes it, and no more than 101 processes have such a thread. -/
def Fits : Prop :=
  if sig = 0 then ∀ t ∈ s.threads, ∀ p, t.process = some p → ¬Matches s.creds s.current pid p
  else
    (∀ p, s.Deserves pid sig p → ∃ t ∈ s.threads, t.process = some p ∧
      canSendSignal s.creds s.current t sig false = true ∧ t.sig.Accepts sig true) ∧
    (s.takers pid sig).length ≤ 101

variable {s pid sig}

theorem mem_takers : p ∈ s.takers pid sig ↔
    ∃ t ∈ s.threads, t.process = some p ∧ takes s.creds s.current pid sig t p = true := by
  rw [takers, List.mem_dedup, List.mem_filterMap]
  simp only [Option.filter_eq_some_iff]

/-- The loop serves the first 101 of them. -/
theorem length_receivers :
    (receivers s.creds s.current pid sig s.threads []).length = (s.takers pid sig).length := by
  refine ((List.perm_ext_iff_of_nodup nodup_receivers (List.nodup_dedup _)).2 fun p => ?_).length_eq
  rw [mem_receivers]
  exact (and_iff_right List.not_mem_nil).trans mem_takers.symm

theorem considers_eq_none : considers s.creds s.current pid ⟨[], -1, .ESRCH⟩ t = none ↔
    ∀ p, t.process = some p → ¬Matches s.creds s.current pid p := by
  rw [considers, Option.filter_eq_none_iff]
  refine forall₂_congr fun p _ => ?_
  rw [← selects_iff]
  simp

theorem not_deserves_zero : ¬s.Deserves pid 0 p := fun h => h.1 rfl

/-- The null signal. -/
theorem right_null {currentTime : ℕ} : s.Right pid 0 currentTime ↔ s.Fits pid 0 := by
  rw [Fits, if_pos rfl]
  by_cases hno : ∀ t ∈ s.threads, considers s.creds s.current pid ⟨[], -1, .ESRCH⟩ t = none
  · have hmatch : ∀ t ∈ s.threads, ∀ p, t.process = some p → ¬Matches s.creds s.current pid p :=
      fun t ht => considers_eq_none.1 (hno t ht)
    refine iff_of_true ?_ hmatch
    have hmay : ¬∃ p, Matches s.creds s.current pid p ∧ s.MaySignal 0 p := by
      rintro ⟨p, hp, t, ht, htp, -⟩
      exact hmatch t ht p htp hp
    have hrun : s.signalPidUnlocked currentTime pid none false = some ⟨-1, .ESRCH, s.threads⟩ := by
      rw [signalPidUnlocked, signalLoop_null_some hno]
      rfl
    rw [Right, signalPid, if_pos rfl, signalPidEx, hrun]
    by_cases hz : s.isZombie pid = true
    · refine ⟨⟨0, .ESRCH, s.threads⟩, by simp [hz], ?_, fun p _ => received_self, by simp [hz]⟩
      exact fun p h => absurd h not_deserves_zero
    · refine ⟨⟨-1, .ESRCH, s.threads⟩, by simp [hz], ?_, fun p _ => received_self, by simp [hz, hmay]⟩
      exact fun p h => absurd h not_deserves_zero
  · refine iff_of_false ?_ fun h => hno fun t ht => considers_eq_none.2 (h t ht)
    simp only [not_forall] at hno
    obtain ⟨t, ht, hf⟩ := hno
    obtain ⟨p, hf⟩ := Option.ne_none_iff_exists'.1 hf
    rintro ⟨a, ha, -⟩
    rw [signalPid, if_pos rfl, signalPidEx, signalPidUnlocked, signalLoop_null_none ht hf] at ha
    exact nomatch ha

theorem deserves_of_taken (hsig : sig ≠ 0) {t : KillThread} (ht : t ∈ s.threads)
    (hp : t.process = some p) (h : takes s.creds s.current pid sig t p = true) : s.Deserves pid sig p := by
  obtain ⟨⟨hsel, hcan⟩, haccepts⟩ := takes_iff.1 h
  exact ⟨hsig, selects_iff.1 hsel, ⟨t, ht, hp, hcan⟩, ⟨t, ht, hp, haccepts.2.2.1⟩⟩

/-- The processes that deserve the signal are the first 101 that have a thread which takes it. -/
theorem fits_iff (hsig : sig ≠ 0) : s.Fits pid sig ↔ ∀ p, s.Deserves pid sig p ↔
    p ∈ (receivers s.creds s.current pid sig s.threads []).take 101 := by
  have hmem : ∀ p, p ∈ receivers s.creds s.current pid sig s.threads [] ↔
      ∃ t ∈ s.threads, t.process = some p ∧ takes s.creds s.current pid sig t p = true := fun p =>
    mem_receivers.trans (and_iff_right List.not_mem_nil)
  rw [Fits, if_neg hsig, ← length_receivers]
  constructor
  · rintro ⟨htaken, hlen⟩ p
    rw [List.take_of_length_le hlen, hmem]
    constructor
    · intro hdes
      obtain ⟨t, ht, hp, hcan, haccepts⟩ := htaken p hdes
      exact ⟨t, ht, hp, takes_iff.2 ⟨⟨selects_iff.2 hdes.2.1, hcan⟩, haccepts⟩⟩
    · rintro ⟨t, ht, hp, htakes⟩
      exact deserves_of_taken hsig ht hp htakes
  · intro h
    refine ⟨fun p hdes => ?_, ?_⟩
    · obtain ⟨t, ht, hp, htakes⟩ := (hmem p).1 (List.mem_of_mem_take ((h p).1 hdes))
      obtain ⟨⟨-, hcan⟩, haccepts⟩ := takes_iff.1 htakes
      exact ⟨t, ht, hp, hcan, haccepts⟩
    · by_contra hlen
      -- the process after the first 101 deserves the signal as well
      obtain ⟨p, hp⟩ := List.exists_mem_of_ne_nil
        ((receivers s.creds s.current pid sig s.threads []).drop 101) (by
          rw [Ne, List.drop_eq_nil_iff]
          exact hlen)
      obtain ⟨t, ht, htp, htakes⟩ := (hmem p).1 (List.mem_of_mem_drop hp)
      have htake := (h p).1 (deserves_of_taken hsig ht htp htakes)
      exact List.disjoint_take_drop nodup_receivers (Nat.le_refl 101) htake hp

/-- What the call returns. -/
theorem signalPidEx_spec {currentTime : ℕ} {si : Option Siginfo} {a : Answer}
    (h : s.signalPidUnlocked currentTime pid si false = some a) :
    ∃ a', s.signalPidEx currentTime pid si false = some a' ∧ a'.threads = a.threads ∧
      (a'.result = 0 ↔ a.result = 0 ∨ s.isZombie pid = true) := by
  rw [signalPidEx, h]
  by_cases hz : a.result ≠ 0 ∧ s.isZombie pid = true
  · exact ⟨{ a with result := 0 }, if_pos hz, rfl, iff_of_true rfl (.inr hz.2)⟩
  · refine ⟨a, if_neg hz, rfl, (or_iff_left_of_imp fun h => ?_).symm⟩
    by_contra hne
    exact hz ⟨hne, h⟩

/-- Any other signal. -/
theorem right_signal {currentTime : ℕ} (hsig : sig ≠ 0) :
    s.Right pid sig currentTime ↔ s.Fits pid sig := by
  have hsigno : (s.killInfo sig).si_signo = sig := by
    unfold killInfo
    split <;> rfl
  obtain ⟨ts', loop', hrun, hrec, hres⟩ := @signalLoop_spec s.creds s.current pid
    (s.killInfo sig) s.threads ⟨[], -1, .ESRCH⟩ currentTime (by simp) nofun
  rw [hsigno] at hrec hres
  have hrun : s.signalPidUnlocked currentTime pid (some (s.killInfo sig)) false =
      some ⟨loop'.result, loop'.errno, ts'⟩ := by
    rw [signalPidUnlocked, hrun]
    rfl
  obtain ⟨a, ha, hthreads, hresult⟩ := signalPidEx_spec hrun
  have hmay : loop'.result = 0 ↔ ∃ p, Matches s.creds s.current pid p ∧ s.MaySignal sig p := by
    rw [hres, or_iff_right (by decide)]
    constructor
    · rintro ⟨t, ht, p, hp, hsel, hcan⟩
      exact ⟨p, selects_iff.1 hsel, t, ht, hp, hcan⟩
    · rintro ⟨p, hmatch, t, ht, hp, hcan⟩
      exact ⟨t, ht, p, hp, selects_iff.2 hmatch, hcan⟩
  have hrec : ∀ p, received (s.killInfo sig) p s.threads a.threads =
      if p ∈ (receivers s.creds s.current pid sig s.threads []).take 101 then 1 else 0 := by
    rw [hthreads]
    exact hrec
  rw [fits_iff hsig, Right, signalPid, if_neg hsig, ha]
  constructor
  · rintro ⟨a', ha', hdes, hnot, -⟩ p
    obtain rfl := Option.some.inj ha'
    constructor
    · intro h
      by_contra hp
      exact absurd ((hdes p h).symm.trans ((hrec p).trans (if_neg hp))) (by decide)
    · intro hp
      by_contra h
      exact absurd ((hnot p h).symm.trans ((hrec p).trans (if_pos hp))) (by decide)
  · intro h
    refine ⟨a, rfl, fun p hdes => ?_, fun p hnot => ?_, hresult.trans (or_congr_left hmay)⟩
    · rw [hrec, if_pos ((h p).1 hdes)]
    · rw [hrec, if_neg fun hp => hnot ((h p).2 hp)]

/-- Exactly when a call of `signalPid` does what it is for. -/
theorem signalPid_right (s : KillState) (pid sig : ℤ) (currentTime : ℕ) : s.Right pid sig currentTime ↔ s.Fits pid sig := by
  by_cases hsig : sig = 0
  · rw [hsig, right_null]
  · exact right_signal hsig

/-- Process 1 with one thread, which runs. -/
def onlyInit : KillState where
  current := ⟨some 1, false, ⟨false, false, false, 0, 0, 0, fun _ => { si_signo := 0 }, 0,
    fun _ => ⟨SIG_DFL, 0, 0, 0⟩⟩⟩
  others := []
  creds := fun _ => ⟨1, 1, 0, 0⟩
  notifs := []

/-- `signalPid` dereferences a null pointer when process 1 asks whether it may signal itself. -/
theorem not_right_null : ¬onlyInit.Right 1 0 0 := by
  rintro ⟨a, ha, -⟩
  have hnone : (onlyInit.signalPid 0 1 0).isNone = true := by decide
  rw [ha] at hnone
  exact Bool.false_ne_true hnone

end KillState

end Kill

end Glidix.Thread
