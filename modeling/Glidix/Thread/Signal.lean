import Mathlib.Data.Fintype.Basic
import Mathlib.Data.Multiset.Filter
import Glidix.Lib.Runs

/-!
# Signals

A thread has 64 slots for pending signals.  `sendSignalEx` fills a free one, `dispatchSignal` and
`sys_sigwait` empty one, each between `lockSched` and `unlockSched`.  A blocked signal stays in its
slot for as long as it is blocked, so the slots may be used up; a signal sent then is discarded, and
`SIGKILL` and `SIGTHKILL` are no exception.  As long as no kill is sent to a thread without a free
slot, none is lost (`kills_not_lost`).
-/

namespace Glidix.Thread

def SIGILL : ℤ := 4
def SIGABRT : ℤ := 6
def SIGKILL : ℤ := 9
def SIGBUS : ℤ := 10
def SIGSEGV : ℤ := 11
def SIGSYS : ℤ := 12
def SIGALRM : ℤ := 14
def SIGSTOP : ℤ := 23
def SIGCONT : ℤ := 25
def SIGTHKILL : ℤ := 35
def SIGTHWAKE : ℤ := 36
def SIGTHSUSP : ℤ := 38

def SIG_NUM : ℤ := 39

def SIG_DFL : ℕ := 1
def SIG_IGN : ℕ := 4
def SIG_CORE : ℕ := 5

/-- The bit `SA_SIGINFO` of `sa_flags`. -/
def SA_SIGINFO : ℕ := 6

structure Siginfo where
  si_signo : ℤ
  si_code : ℤ := 0
  si_errno : ℤ := 0
  si_pid : ℤ := 0
  si_uid : ℤ := 0
  si_addr : ℕ := 0
  si_status : ℤ := 0
  si_band : ℤ := 0
  si_value : ℤ := 0
  deriving DecidableEq

structure SigAction where
  sa_handler : ℕ
  sa_mask : BitVec 64
  sa_flags : BitVec 32
  sa_sigaction : ℕ
  deriving DecidableEq

/-- What signals depend on in a thread of a process: the flags `THREAD_TRACED`, `THREAD_WAITING` and
`THREAD_TERMINATED`, and the fields of the source.  The dispositions are indexed by signal number. -/
structure SigThread where
  traced : Bool
  waiting : Bool
  terminated : Bool
  wakeCounter : Int32
  alarmTime : ℕ
  pendingSet : BitVec 64
  pendingSigs : Fin 64 → Siginfo
  sigmask : BitVec 64
  sigdisp : ℤ → SigAction

/-- The default action of these is to end the process. -/
def isDeathSig (signo : ℤ) : Bool := signo ∈ [1, 2, 3, 4, 6, 8, 11, 13, 14, 15, 16, 17, 10, 12]

def isUnblockableSig (signo : ℤ) : Bool :=
  signo ∈ [SIGKILL, SIGTHKILL, SIGSTOP, SIGTHSUSP, SIGSEGV, SIGABRT, SIGILL, SIGBUS, SIGSYS]

def sigbit (signo : ℤ) : BitVec 64 := 1#64 <<< signo.toNat

namespace SigThread

variable (t : SigThread)

/-- The slot holds a signal that is not blocked. -/
def ready (i : Fin 64) : Bool :=
  t.pendingSet.getLsbD i && (t.sigmask &&& sigbit (t.pendingSigs i).si_signo == 0 ||
    isUnblockableSig (t.pendingSigs i).si_signo)

def haveReadySigs : Bool := (List.finRange 64).any t.ready

/-- The first slot without a signal. -/
def freeSlot : Option (Fin 64) := (List.finRange 64).find? fun i => !t.pendingSet.getLsbD i

/-- Put a signal into a slot. -/
def fill (i : Fin 64) (siginfo : Siginfo) : SigThread :=
  { t with
    pendingSet := t.pendingSet ||| 1#64 <<< i.val
    pendingSigs := Function.update t.pendingSigs i siginfo }

/-- Take the signal out of a slot. -/
def clear (i : Fin 64) : SigThread := { t with pendingSet := t.pendingSet &&& ~~~(1#64 <<< i.val) }

/-- `signalThread` for a thread whose alarm is not due. -/
def wake : SigThread :=
  if t.waiting then { t with waiting := false } else { t with wakeCounter := t.wakeCounter + 1 }

/-- `sendSignalEx`, with what it does to wake up the thread; `nonblocked` is the flag
`SS_NONBLOCKED`.  There is no result in case of a panic. -/
def sendSignalWith (signal : SigThread → Option SigThread) (siginfo : Siginfo) (nonblocked : Bool) :
    Option (Int32 × SigThread) :=
  if siginfo.si_signo < 0 ∨ SIG_NUM ≤ siginfo.si_signo then none
  else
    let t := if t.traced then { t with traced := false, waiting := true } else t
    let ignorable := siginfo.si_signo ∉ [SIGKILL, SIGTHKILL, SIGSTOP]
    if t.terminated then some (-1, t)
    else if siginfo.si_signo = SIGCONT then (signal t).map fun t => (-1, t)
    else if siginfo.si_signo = SIGTHWAKE then (signal t).map fun t => (0, t)
    else if ignorable ∧ (t.sigdisp siginfo.si_signo).sa_handler = SIG_IGN then
      (signal t).map fun t => (-1, t)
    else if ignorable ∧ nonblocked ∧ t.sigmask &&& sigbit siginfo.si_signo ≠ 0 then some (-1, t)
    else if t.pendingSet = BitVec.allOnes 64 then (signal t).map fun t => (-1, t)
    else do
      let i ← t.freeSlot
      (signal (t.fill i siginfo)).map fun t => (0, t)

/-- An alarm that is due is sent first; by then it has been cancelled. -/
def signalThread (currentTime : ℕ) : Option SigThread :=
  if t.alarmTime ≠ 0 ∧ t.alarmTime ≤ currentTime then
    (({ t with alarmTime := 0 } : SigThread).sendSignalWith (fun t => some t.wake)
      { si_signo := SIGALRM } false).map fun r => r.2.wake
  else some t.wake

def sendSignalEx (currentTime : ℕ) (siginfo : Siginfo) (nonblocked : Bool) :
    Option (Int32 × SigThread) :=
  t.sendSignalWith (signalThread · currentTime) siginfo nonblocked

def sendSignal (currentTime : ℕ) (siginfo : Siginfo) : Option (Int32 × SigThread) :=
  t.sendSignalEx currentTime siginfo false

end SigThread

/-- What the thread goes on with after `dispatchSignal`. -/
inductive Dispatched where
  | threadExit
  | processExit (status : ℤ)
  | suspend (suspendCounter : ℕ)
  | coredump
  /-- `jumpToHandler` with a frame that restores the mask. -/
  | handler (handler : ℕ) (sigmask : BitVec 64)
  /-- The signal is ignored. -/
  | resume
  deriving DecidableEq

namespace SigThread

variable (t : SigThread)

/-- What is done about a signal that has been taken out of its slot. -/
def actOn (siginfo : Siginfo) : Dispatched × SigThread :=
  let action := t.sigdisp siginfo.si_signo
  if siginfo.si_signo = SIGTHKILL then (.threadExit, t)
  else if siginfo.si_signo = SIGKILL then (.processExit SIGKILL, t)
  else if siginfo.si_signo = SIGTHSUSP then (.suspend siginfo.si_addr, t)
  else if action.sa_flags.getLsbD SA_SIGINFO then
    (.handler action.sa_sigaction t.sigmask, { t with sigmask := t.sigmask ||| action.sa_mask })
  else if action.sa_handler = SIG_IGN then (.resume, t)
  else if action.sa_handler = SIG_CORE then (.coredump, t)
  else if action.sa_handler = SIG_DFL then
    (if isDeathSig siginfo.si_signo then .processExit siginfo.si_signo else .resume, t)
  else (.handler action.sa_handler t.sigmask, { t with sigmask := t.sigmask ||| action.sa_mask })

/-- There is no result in case of a panic, else the signal comes with what is done about it. -/
def dispatchSignal : Option (Siginfo × Dispatched × SigThread) := do
  let i ← (List.finRange 64).find? t.ready
  some (t.pendingSigs i, (t.clear i).actOn (t.pendingSigs i))

/-- The signals that `sys_sigwait` never waits for. -/
def neverWaited : BitVec 64 :=
  sigbit SIGKILL ||| sigbit SIGSTOP ||| sigbit SIGTHKILL ||| sigbit SIGTHWAKE

/-- How one pass of `sys_sigwait` over the slots ends: with a signal, with `EINTR`, or without
either, when it waits or gives up. -/
inductive Waited where
  | received (siginfo : Siginfo)
  | interrupted
  | nothing
  deriving DecidableEq

/-- One pass of `sys_sigwait` over the slots, for the set of the call. -/
def sigwait (set : BitVec 64) : Waited × SigThread :=
  let set := set &&& ~~~neverWaited
  let wanted i := t.pendingSet.getLsbD i.val && set &&& sigbit (t.pendingSigs i).si_signo != 0
  match (List.finRange 64).find? fun i => wanted i || t.ready i with
  | none => (.nothing, t)
  | some i => if wanted i then (.received (t.pendingSigs i), t.clear i) else (.interrupted, t)

end SigThread

/-! ## Pending signals -/

/-- The signals that end a thread whatever it has arranged for. -/
def Siginfo.Kills (siginfo : Siginfo) : Prop :=
  siginfo.si_signo = SIGKILL ∨ siginfo.si_signo = SIGTHKILL

instance : DecidablePred Siginfo.Kills := fun _ => inferInstanceAs (Decidable (_ ∨ _))

theorem getLsbD_bit (i j : Fin 64) : (1#64 <<< i.val).getLsbD j.val = decide (j = i) := by
  have h := BitVec.getLsbD_twoPow (w := 64) i.val j.val
  rw [BitVec.twoPow_eq] at h
  rw [h]
  simp [Fin.ext_iff, eq_comm]

namespace SigThread

variable {t u : SigThread} {i : Fin 64} {siginfo : Siginfo} {set : BitVec 64}

/-- The slots that hold a signal. -/
def occupied (t : SigThread) : Finset (Fin 64) :=
  Finset.univ.filter fun i : Fin 64 => t.pendingSet.getLsbD i

def pending (t : SigThread) : Multiset Siginfo := t.occupied.val.map t.pendingSigs

/-- The pending signals that end the thread. -/
def kills (t : SigThread) : Multiset Siginfo := t.pending.filter Siginfo.Kills

@[simp] theorem mem_occupied : i ∈ t.occupied ↔ t.pendingSet.getLsbD i = true := by simp [occupied]

theorem occupied_fill : (t.fill i siginfo).occupied = insert i t.occupied := by
  ext j
  rw [Finset.mem_insert, mem_occupied, mem_occupied, fill, BitVec.getLsbD_or, getLsbD_bit]
  simp [or_comm]

theorem occupied_clear : (t.clear i).occupied = t.occupied.erase i := by
  ext j
  rw [Finset.mem_erase, mem_occupied, mem_occupied, clear, BitVec.getLsbD_and, BitVec.getLsbD_not,
    getLsbD_bit]
  simp [and_comm]

theorem pending_fill (hi : i ∉ t.occupied) :
    (t.fill i siginfo).pending = siginfo ::ₘ t.pending := by
  have hrest : t.occupied.val.map (Function.update t.pendingSigs i siginfo) = t.pending :=
    Multiset.map_congr rfl fun j hj =>
      Function.update_of_ne (fun h : j = i => hi (h ▸ hj)) _ _
  rw [pending, occupied_fill, Finset.insert_val_of_notMem hi, Multiset.map_cons]
  exact congrArg₂ Multiset.cons (Function.update_self ..) hrest

theorem pending_clear (hi : i ∈ t.occupied) :
    t.pending = t.pendingSigs i ::ₘ (t.clear i).pending := by
  have hne : i ∉ t.occupied.erase i := Finset.notMem_erase i _
  conv_lhs => rw [pending, ← Finset.insert_erase hi, Finset.insert_val_of_notMem hne,
    Multiset.map_cons, ← occupied_clear]
  rfl

theorem kills_fill (hi : i ∉ t.occupied) : (t.fill i siginfo).kills =
    if siginfo.Kills then siginfo ::ₘ t.kills else t.kills := by
  rw [kills, pending_fill hi]
  split_ifs with hk
  · exact Multiset.filter_cons_of_pos _ hk
  · exact Multiset.filter_cons_of_neg _ hk

theorem kills_clear (hi : i ∈ t.occupied) : t.kills =
    if (t.pendingSigs i).Kills then t.pendingSigs i ::ₘ (t.clear i).kills else (t.clear i).kills := by
  rw [kills, pending_clear hi]
  split_ifs with hk
  · exact Multiset.filter_cons_of_pos _ hk
  · exact Multiset.filter_cons_of_neg _ hk

theorem freeSlot_spec (h : t.freeSlot = some i) : i ∉ t.occupied := by
  have := List.find?_some h
  simpa using this

/-- A thread that has not used up its slots has a free one: the second panic of `sendSignalEx` is out
of reach. -/
theorem freeSlot_isSome (h : t.pendingSet ≠ BitVec.allOnes 64) : ∃ i, t.freeSlot = some i := by
  rw [← Option.ne_none_iff_exists']
  intro hnone
  refine h (BitVec.eq_of_getLsbD_eq fun i hi => ?_)
  have hall := List.find?_eq_none.1 hnone ⟨i, hi⟩ (List.mem_finRange _)
  rw [BitVec.getLsbD_allOnes, decide_eq_true hi]
  simpa using hall

/-! ## What the operations do to kills -/

/-- The kills that are pending stay so, and the thread is no more terminated than before. -/
def SameKills (t u : SigThread) : Prop := u.kills = t.kills ∧ u.terminated = t.terminated

theorem sameKills_wake : SameKills t t.wake := by
  unfold wake
  split <;> exact ⟨rfl, rfl⟩

theorem sendSignalWith_kills {signal : SigThread → Option SigThread} {nonblocked : Bool} {r : Int32}
    (hsignal : ∀ t u, t.terminated = false → signal t = some u → SameKills t u)
    (ht : t.terminated = false)
    (h : t.sendSignalWith signal siginfo nonblocked = some (r, u)) : u.terminated = false ∧
      u.kills = if siginfo.Kills ∧ t.pendingSet ≠ BitVec.allOnes 64 then siginfo ::ₘ t.kills
        else t.kills := by
  unfold sendSignalWith at h
  obtain ⟨v, hv, hset, hkills, hterm⟩ :
      ∃ v, v = (if t.traced then { t with traced := false, waiting := true } else t) ∧
        v.pendingSet = t.pendingSet ∧ v.kills = t.kills ∧ v.terminated = false := by
    refine ⟨_, rfl, ?_⟩
    split <;> exact ⟨rfl, rfl, ht⟩
  simp only [← hv, hterm, Bool.false_eq_true, if_false] at h
  rw [← hset, ← hkills]
  have hsame : ∀ {w : SigThread} {q : Int32}, w.terminated = false →
      ((signal w).map fun t => (q, t)) = some (r, u) → u.kills = w.kills ∧ u.terminated = false :=
    fun hw hu => by
      obtain ⟨u', hu, he⟩ := Option.map_eq_some_iff.1 hu
      cases he
      obtain ⟨hkills, hterm⟩ := hsignal _ _ hw hu
      exact ⟨hkills, hterm.trans hw⟩
  by_cases hk : siginfo.Kills
  · have hno : siginfo.si_signo ∈ [SIGKILL, SIGTHKILL, SIGSTOP] ∧ siginfo.si_signo ≠ SIGCONT ∧
        siginfo.si_signo ≠ SIGTHWAKE := by
      obtain hk | hk := hk <;> rw [hk] <;> decide
    simp only [hno, not_true_eq_false, false_and, if_false] at h
    split_ifs at h with hrange hfull
    · obtain ⟨hu, hd⟩ := hsame hterm h
      exact ⟨hd, by rw [if_neg fun hn => hn.2 hfull, hu]⟩
    · obtain ⟨i, hi, h⟩ := Option.bind_eq_some_iff.1 h
      obtain ⟨hu, hd⟩ := hsame (w := v.fill i siginfo) hterm h
      exact ⟨hd, by
        rw [hu, kills_fill (freeSlot_spec hi), if_pos hk, if_pos ⟨hk, hfull⟩]⟩
  · rw [if_neg fun hn => hk hn.1]
    split_ifs at h
    -- the thread is woken up, or the signal is dropped, or it gets a slot
    iterate 3
      obtain ⟨hu, hd⟩ := hsame hterm h
      exact ⟨hd, hu⟩
    · cases h
      exact ⟨hterm, rfl⟩
    · obtain ⟨hu, hd⟩ := hsame hterm h
      exact ⟨hd, hu⟩
    · obtain ⟨i, hi, h⟩ := Option.bind_eq_some_iff.1 h
      obtain ⟨hu, hd⟩ := hsame (w := v.fill i siginfo) hterm h
      exact ⟨hd, by rw [hu, kills_fill (freeSlot_spec hi), if_neg hk]⟩

theorem sameKills_signalThread {currentTime : ℕ} (ht : t.terminated = false)
    (h : t.signalThread currentTime = some u) : SameKills t u := by
  unfold signalThread at h
  split at h
  · obtain ⟨⟨r, v⟩, hv, rfl⟩ := Option.map_eq_some_iff.1 h
    obtain ⟨hterm, hkills⟩ := sendSignalWith_kills (t := { t with alarmTime := 0 })
      (fun _ _ _ hw => Option.some.inj hw ▸ sameKills_wake) ht hv
    have halarm : ¬(⟨SIGALRM, 0, 0, 0, 0, 0, 0, 0, 0⟩ : Siginfo).Kills := by decide
    rw [if_neg fun hn => halarm hn.1] at hkills
    exact ⟨sameKills_wake.1.trans hkills, sameKills_wake.2.trans (hterm.trans ht.symm)⟩
  · cases h
    exact sameKills_wake

/-- A kill is added to those that are pending if and only if there is a free slot. -/
theorem sendSignalEx_kills {currentTime : ℕ} {nonblocked : Bool} {r : Int32}
    (ht : t.terminated = false)
    (h : t.sendSignalEx currentTime siginfo nonblocked = some (r, u)) : u.terminated = false ∧
      u.kills = if siginfo.Kills ∧ t.pendingSet ≠ BitVec.allOnes 64 then siginfo ::ₘ t.kills
        else t.kills :=
  sendSignalWith_kills (fun _ _ ht hu => sameKills_signalThread ht hu) ht h

theorem sameKills_actOn : SameKills t (t.actOn siginfo).2 := by
  unfold actOn
  dsimp only
  split_ifs <;> exact ⟨rfl, rfl⟩

/-- `dispatchSignal` takes the signal that it acts on out of the pending ones, and no other. -/
theorem dispatchSignal_kills {d : Dispatched} (h : t.dispatchSignal = some (siginfo, d, u)) :
    u.terminated = t.terminated ∧
      t.kills = if siginfo.Kills then siginfo ::ₘ u.kills else u.kills := by
  obtain ⟨i, hi, h⟩ := Option.bind_eq_some_iff.1 h
  have hready : t.ready i = true := List.find?_some hi
  have hocc : i ∈ t.occupied := mem_occupied.2 (Bool.and_elim_left hready)
  obtain ⟨rfl, hu⟩ := Prod.mk.inj (Option.some.inj h)
  have hact : SameKills (t.clear i) ((t.clear i).actOn (t.pendingSigs i)).2 := sameKills_actOn
  obtain ⟨hkills, hterm⟩ := hact
  rw [hu] at hkills hterm
  exact ⟨hterm, by rw [hkills, ← kills_clear hocc]⟩

theorem neverWaited_kills (h : siginfo.Kills) :
    set &&& ~~~neverWaited &&& sigbit siginfo.si_signo = 0 := by
  have hnone : ~~~neverWaited &&& sigbit siginfo.si_signo = 0 := by
    obtain h | h := h <;> rw [h] <;> decide
  rw [BitVec.and_assoc, hnone]
  exact BitVec.and_zero

/-- `sys_sigwait` takes no kill. -/
theorem sigwait_kills : SameKills t (t.sigwait set).2 := by
  unfold sigwait
  dsimp only
  split
  · exact ⟨rfl, rfl⟩
  · rename_i i hi
    split_ifs with hwanted
    · obtain ⟨hocc, hset⟩ := (Bool.and_eq_true_iff ..).1 hwanted
      refine ⟨?_, rfl⟩
      rw [kills_clear (mem_occupied.2 hocc), if_neg fun hk => ?_]
      rw [neverWaited_kills hk] at hset
      exact absurd hset (by decide)
    · exact ⟨rfl, rfl⟩

end SigThread

/-! ## Histories -/

/-- A thread, and the kills sent to it that `dispatchSignal` has not acted on yet. -/
structure SigState where
  thread : SigThread
  owed : Multiset Siginfo

inductive SigEvent where
  | send (currentTime : ℕ) (siginfo : Siginfo) (nonblocked : Bool)
  | dispatch
  | sigwait (set : BitVec 64)
  /-- Anything else that happens to the thread: it changes its mask, its dispositions or its alarm,
  goes to sleep, is woken up or traced. -/
  | other (thread : SigThread)

namespace SigState

variable {s s' : SigState}

def step (s : SigState) : SigEvent → Option SigState
  | .send currentTime siginfo nonblocked => do
    let r ← s.thread.sendSignalEx currentTime siginfo nonblocked
    some ⟨r.2, if siginfo.Kills then siginfo ::ₘ s.owed else s.owed⟩
  | .dispatch => do
    let r ← s.thread.dispatchSignal
    some ⟨r.2.2, if r.1.Kills then s.owed.erase r.1 else s.owed⟩
  | .sigwait set => some ⟨(s.thread.sigwait set).2, s.owed⟩
  | .other thread =>
    if thread.terminated = false ∧ thread.pendingSet = s.thread.pendingSet ∧
      thread.pendingSigs = s.thread.pendingSigs then some ⟨thread, s.owed⟩ else none

/-- No kill is owed that is not pending, and the other way round. -/
structure NotLost (s : SigState) : Prop where
  alive : s.thread.terminated = false
  pending : s.owed = s.thread.kills

/-- If a kill is sent, there is a free slot for it. -/
def HasSlot (s : SigState) (e : SigEvent) : Prop :=
  ∀ currentTime siginfo nonblocked, e = .send currentTime siginfo nonblocked → siginfo.Kills →
    s.thread.pendingSet ≠ BitVec.allOnes 64

theorem NotLost.step {e : SigEvent} (hs : s.NotLost) (hc : s.HasSlot e) (h : s.step e = some s') :
    s'.NotLost := by
  cases e with
  | send currentTime siginfo nonblocked =>
    obtain ⟨⟨r, u⟩, hu, h⟩ := Option.bind_eq_some_iff.1 h
    cases h
    obtain ⟨hterm, hkills⟩ := SigThread.sendSignalEx_kills hs.alive hu
    refine ⟨hterm, ?_⟩
    rw [hkills, hs.pending]
    by_cases hk : siginfo.Kills
    · rw [if_pos hk, if_pos ⟨hk, hc _ _ _ rfl hk⟩]
    · rw [if_neg hk, if_neg fun hn => hk hn.1]
  | dispatch =>
    obtain ⟨⟨siginfo, d, u⟩, hu, h⟩ := Option.bind_eq_some_iff.1 h
    cases h
    obtain ⟨hterm, hkills⟩ := SigThread.dispatchSignal_kills hu
    refine ⟨hterm.trans hs.alive, ?_⟩
    dsimp only
    rw [hs.pending, hkills]
    split_ifs
    · exact Multiset.erase_cons_head _ _
    · rfl
  | sigwait set =>
    cases h
    have hwait : SigThread.SameKills s.thread (s.thread.sigwait set).2 := SigThread.sigwait_kills
    exact ⟨hwait.2.trans hs.alive, hs.pending.trans hwait.1.symm⟩
  | other thread =>
    obtain ⟨⟨hterm, hset, hsigs⟩, h⟩ := Option.ite_none_right_eq_some.1 h
    cases h
    refine ⟨hterm, hs.pending.trans ?_⟩
    simp only [SigThread.kills, SigThread.pending, SigThread.occupied, hset, hsigs]

end SigState

/-- The histories of a thread that is not terminated, with any mask and any pending signals. -/
def sigSystem : System SigState SigEvent where
  init s := s.thread.terminated = false ∧ s.owed = s.thread.kills
  step s e s' := s.step e = some s'

/-- If every kill finds a free slot, then those pending are those that have been sent and not acted
on. -/
theorem kills_not_lost {s : SigState} (h : sigSystem.ReachesBy SigState.HasSlot s) : s.NotLost :=
  h.invariant (fun _ hs => ⟨hs.1, hs.2⟩) fun _ _ _ hs hc ht => hs.step hc ht

/-- A thread that blocks `SIGUSR1`. -/
def blockingThread : SigThread where
  traced := false
  waiting := false
  terminated := false
  wakeCounter := 0
  alarmTime := 0
  pendingSet := 0
  pendingSigs _ := { si_signo := 0 }
  sigmask := sigbit 16
  sigdisp _ := ⟨SIG_DFL, 0, 0, 0⟩

/-- The thread is sent a number of signals that it blocks, and then a kill. -/
def blockedThenKill (n : ℕ) : List SigEvent :=
  List.replicate n (.send 0 { si_signo := 16 } false) ++ [.send 0 { si_signo := SIGKILL } false]

theorem kills_not_lost_once : ∃ s : SigState, s.NotLost ∧ s.owed = {{ si_signo := SIGKILL }} := by
  have hrun : ∃ s, SigState.step ⟨blockingThread, 0⟩ (.send 0 { si_signo := SIGKILL } false) = some s ∧
      s.owed = {{ si_signo := SIGKILL }} := by
    refine ⟨_, rfl, ?_⟩
    decide
  obtain ⟨s, hs, howed⟩ := hrun
  have hinit : sigSystem.ReachesBy SigState.HasSlot ⟨blockingThread, 0⟩ := .init ⟨rfl, by decide⟩
  exact ⟨s, kills_not_lost (hinit.step (fun _ _ _ _ _ => by decide) hs), howed⟩

/-- A kill that follows 64 blocked signals is gone. -/
theorem kill_lost : ∃ s, sigSystem.Reachable s ∧
    { si_signo := SIGKILL } ∈ s.owed ∧ { si_signo := SIGKILL } ∉ s.thread.pending := by
  have hrun : ((blockedThenKill 64).foldlM SigState.step ⟨blockingThread, 0⟩).any (fun s =>
      { si_signo := SIGKILL } ∈ s.owed ∧ { si_signo := SIGKILL } ∉ s.thread.pending) = true := by
    decide
  obtain ⟨s, hs, hlost⟩ := (Option.any_eq_true ..).1 hrun
  refine ⟨s, ?_, of_decide_eq_true hlost⟩
  exact System.ReachesBy.foldlM (fun _ _ _ h => ⟨trivial, h⟩) (.init ⟨rfl, by decide⟩) hs

end Glidix.Thread
