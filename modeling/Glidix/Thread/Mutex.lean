import Mathlib.Algebra.Order.Ring.Int
import Mathlib.Data.List.Nodup
import Mathlib.Logic.Function.Basic
import Glidix.Lib.Runs

/-!
# Mutexes

A mutex is recursive and is handed to a sleeping thread directly.  A step of a thread is an access to
the mutex outside its spinlock, or all that the thread does between acquiring the spinlock and
releasing it; the threads take their steps in any order.  A `MutexWaiter` lies on the stack of its
thread, so the queue is a list of threads and `awaken` is part of the state of the thread.  The
counter `numLocks` is an `int`, so the nesting depth of a thread must stay below `2 ^ 31`; then what
the mutex is for holds in every state (`mutex_ok`).
-/

namespace Glidix.Thread

/-- What a thread is doing with the mutex. -/
inductive MutexThread where
  /-- Not in a call; `result` is what the last one returned. -/
  | running (result : Int32)
  /-- It has found itself to be the owner, and is about to increment `numLocks`. -/
  | nesting
  /-- In `mutexLock`, about to acquire the spinlock. -/
  | locking
  /-- In `mutexTryLock`, about to acquire the spinlock. -/
  | trying
  /-- In the loop of `mutexLock`, asleep or woken up. -/
  | waiting (awaken : Bool)
  /-- At the end of `mutexLock`, about to set `numLocks`. -/
  | woken
  /-- In `mutexUnlock`, about to decrement `numLocks`. -/
  | unnesting
  /-- In `mutexUnlock`, about to acquire the spinlock. -/
  | unlocking
  deriving DecidableEq

/-- A mutex and its threads.  `depth` is how often a thread has locked the mutex and not unlocked it,
`arrived` are the threads that had to wait, in the order in which they came, and `served` those that
the mutex has been handed to. -/
structure MutexState where
  owner : Option ℕ
  numLocks : Int32
  queue : List ℕ
  threads : ℕ → MutexThread
  depth : ℕ → ℕ
  arrived : List ℕ
  served : List ℕ

/-- `mutexInit`. -/
def mutexInit : MutexState := ⟨none, 0, [], fun _ => .running 0, fun _ => 0, [], []⟩

namespace MutexState

variable (s : MutexState) (tid : ℕ)

def setThread (x : MutexThread) : MutexState :=
  { s with threads := Function.update s.threads tid x }

def setDepth (n : ℕ) : MutexState := { s with depth := Function.update s.depth tid n }

/-- A thread takes a mutex that nobody owns. -/
def acquire : MutexState :=
  ({ s with owner := some tid, numLocks := 1 }.setDepth tid 1).setThread tid (.running 0)

/-- A thread lines up for a mutex that is owned. -/
def enqueue : MutexState :=
  { s with queue := s.queue ++ [tid], arrived := s.arrived ++ [tid] }.setThread tid (.waiting false)

/-- The owner gives the mutex to the first thread of the queue, or to nobody. -/
def release : MutexState :=
  match s.queue with
  | [] => { s with owner := none }
  | next :: rest =>
    { s with owner := some next, queue := rest, served := s.served ++ [next] }.setThread next
      (.waiting true)

/-- The call of `mutexLock`, up to its first access to the mutex. -/
def mutexLock : MutexState :=
  s.setThread tid (if s.owner = some tid then .nesting else .locking)

/-- The call of `mutexTryLock`. -/
def mutexTryLock : MutexState :=
  s.setThread tid (if s.owner = some tid then .nesting else .trying)

/-- The call of `mutexUnlock`; `none` is the panic. -/
def mutexUnlock : Option MutexState :=
  if s.owner = some tid then some (s.setThread tid .unnesting) else none

/-- The next step of a thread that is in a call. -/
def resume : Option MutexState :=
  match s.threads tid with
  | .running _ => none
  | .nesting =>
    some (({ s with numLocks := s.numLocks + 1 }.setDepth tid (s.depth tid + 1)).setThread tid
      (.running 0))
  | .locking => some (if s.owner = none then s.acquire tid else s.enqueue tid)
  | .trying => some (if s.owner = none then s.acquire tid else s.setThread tid (.running (-1)))
  | .waiting awaken => some (s.setThread tid (if awaken then .woken else .waiting false))
  | .woken => some (({ s with numLocks := 1 }.setDepth tid 1).setThread tid (.running 0))
  | .unnesting =>
    some (({ s with numLocks := s.numLocks - 1 }.setDepth tid (s.depth tid - 1)).setThread tid
      (if s.numLocks - 1 ≠ 0 then .running 0 else .unlocking))
  | .unlocking => some (s.release.setThread tid (.running 0))

end MutexState

inductive MutexOp where
  | lock (tid : ℕ)
  | tryLock (tid : ℕ)
  | unlock (tid : ℕ)
  | resume (tid : ℕ)
  deriving DecidableEq

namespace MutexState

/-- The thread is not in a call. -/
def Running (s : MutexState) (tid : ℕ) : Prop := ∃ result, s.threads tid = .running result

def Step (s : MutexState) (op : MutexOp) (t : MutexState) : Prop :=
  match op with
  | .lock tid => s.Running tid ∧ t = s.mutexLock tid
  | .tryLock tid => s.Running tid ∧ t = s.mutexTryLock tid
  | .unlock tid => s.Running tid ∧ s.mutexUnlock tid = some t
  | .resume tid => s.resume tid = some t

end MutexState

def mutexSystem : System MutexState MutexOp where
  init s := s = mutexInit
  step := MutexState.Step

/-! ## The invariant -/

namespace MutexState

variable {s t : MutexState} {tid p q : ℕ}

/-- What the owner may rely on: `numLocks` is its nesting depth. -/
structure Holds (s : MutexState) (p : ℕ) : Prop where
  owner : s.owner = some p
  pos : 0 < s.depth p
  numLocks : s.numLocks.toInt = s.depth p

/-- The thread neither owns the mutex nor is about to. -/
structure Apart (s : MutexState) (p : ℕ) : Prop where
  owner : s.owner ≠ some p
  depth : s.depth p = 0

/-- The mutex is the thread's, but the thread has not locked it yet or has unlocked it. -/
structure Passing (s : MutexState) (p : ℕ) : Prop where
  owner : s.owner = some p
  depth : s.depth p = 0

/-- What holds of a thread, depending on what it is doing. -/
def At (s : MutexState) (p : ℕ) : Prop :=
  match s.threads p with
  | .running _ => s.Holds p ∨ s.Apart p
  | .nesting | .unnesting => s.Holds p
  | .locking | .trying | .waiting false => s.Apart p
  | .waiting true | .woken | .unlocking => s.Passing p

structure Inv (s : MutexState) : Prop where
  threads : ∀ p, s.At p
  nodup : s.queue.Nodup
  queued : ∀ p, p ∈ s.queue ↔ s.threads p = .waiting false
  fifo : s.arrived = s.served ++ s.queue
  idle : s.owner = none → s.queue = []

/-- What holds of a thread depends on the owner, on its depth and on `numLocks` if it is the owner. -/
theorem At.congr (h : s.At p) (hthreads : t.threads p = s.threads p) (hdepth : t.depth p = s.depth p)
    (howner : t.owner = some p ↔ s.owner = some p)
    (hlocks : s.owner = some p → t.numLocks = s.numLocks) : t.At p := by
  have hh : s.Holds p → t.Holds p := fun h =>
    ⟨howner.2 h.owner, hdepth ▸ h.pos, by rw [hlocks h.owner, hdepth, h.numLocks]⟩
  have ha : s.Apart p → t.Apart p := fun h => ⟨fun he => h.owner (howner.1 he), hdepth.trans h.depth⟩
  have hp : s.Passing p → t.Passing p := fun h => ⟨howner.2 h.owner, hdepth.trans h.depth⟩
  unfold At at h ⊢
  rw [hthreads]
  split at h
  · exact h.imp hh ha
  · exact hh h
  · exact hh h
  · exact ha h
  · exact ha h
  · exact ha h
  · exact hp h
  · exact hp h
  · exact hp h

/-- A step of one thread that leaves the queue alone. -/
theorem Inv.of_thread (h : s.Inv) (hqueue : t.queue = s.queue) (harrived : t.arrived = s.arrived)
    (hserved : t.served = s.served)
    (hframe : ∀ p, p ≠ tid → t.threads p = s.threads p ∧ t.depth p = s.depth p ∧
      (t.owner = some p ↔ s.owner = some p) ∧ (s.owner = some p → t.numLocks = s.numLocks))
    (hat : t.At tid) (hqueued : s.threads tid ≠ .waiting false ∧ t.threads tid ≠ .waiting false)
    (hidle : t.owner = none → s.queue = []) : t.Inv where
  threads p := by
    by_cases hp : p = tid
    · exact hp ▸ hat
    · obtain ⟨hthreads, hdepth, howner, hlocks⟩ := hframe p hp
      exact (h.threads p).congr hthreads hdepth howner hlocks
  nodup := hqueue ▸ h.nodup
  queued p := by
    rw [hqueue, h.queued p]
    by_cases hp : p = tid
    · subst hp
      exact iff_of_false hqueued.1 hqueued.2
    · rw [(hframe p hp).1]
  fifo := by rw [harrived, hserved, hqueue, h.fifo]
  idle ho := hqueue.trans (hidle ho)

theorem threads_setThread_self (x : MutexThread) : (s.setThread tid x).threads tid = x :=
  Function.update_self ..

theorem threads_setThread_ne (x : MutexThread) (h : p ≠ tid) :
    (s.setThread tid x).threads p = s.threads p := Function.update_of_ne h ..

@[simp] theorem depth_setThread (x : MutexThread) : (s.setThread tid x).depth = s.depth := rfl

@[simp] theorem numLocks_setThread (x : MutexThread) : (s.setThread tid x).numLocks = s.numLocks := rfl

@[simp] theorem depth_setDepth (n : ℕ) : (s.setDepth tid n).depth tid = n := Function.update_self ..

@[simp] theorem numLocks_setDepth (n : ℕ) : (s.setDepth tid n).numLocks = s.numLocks := rfl

/-- A step that changes nothing but what the thread is doing. -/
theorem Inv.setThread (h : s.Inv) (x : MutexThread) (hat : (s.setThread tid x).At tid)
    (hqueued : s.threads tid ≠ .waiting false ∧ x ≠ .waiting false) : (s.setThread tid x).Inv :=
  h.of_thread rfl rfl rfl (fun _ hp => ⟨threads_setThread_ne x hp, rfl, Iff.rfl, fun _ => rfl⟩) hat
    ⟨hqueued.1, (threads_setThread_self x).trans_ne hqueued.2⟩ h.idle

theorem Inv.holds_of_running (h : s.Inv) (hrun : s.Running tid) (ho : s.owner = some tid) :
    s.Holds tid := by
  obtain ⟨r, hr⟩ := hrun
  have hat := h.threads tid
  rw [At, hr] at hat
  exact hat.resolve_right fun ha => ha.owner ho

theorem Inv.apart_of_running (h : s.Inv) (hrun : s.Running tid) (ho : s.owner ≠ some tid) :
    s.Apart tid := by
  obtain ⟨r, hr⟩ := hrun
  have hat := h.threads tid
  rw [At, hr] at hat
  exact hat.resolve_left fun hh => ho hh.owner

theorem Running.ne_waiting (hrun : s.Running tid) : s.threads tid ≠ .waiting false := by
  obtain ⟨r, hr⟩ := hrun
  exact hr.trans_ne (by simp)

theorem Inv.mutexLock (h : s.Inv) (hrun : s.Running tid) : (s.mutexLock tid).Inv := by
  unfold MutexState.mutexLock
  split_ifs with ho
  · refine h.setThread _ ?_ ⟨hrun.ne_waiting, by simp⟩
    rw [At, threads_setThread_self]
    exact ⟨ho, (h.holds_of_running hrun ho).pos, (h.holds_of_running hrun ho).numLocks⟩
  · refine h.setThread _ ?_ ⟨hrun.ne_waiting, by simp⟩
    rw [At, threads_setThread_self]
    exact ⟨ho, (h.apart_of_running hrun ho).depth⟩

theorem Inv.mutexTryLock (h : s.Inv) (hrun : s.Running tid) : (s.mutexTryLock tid).Inv := by
  unfold MutexState.mutexTryLock
  split_ifs with ho
  · refine h.setThread _ ?_ ⟨hrun.ne_waiting, by simp⟩
    rw [At, threads_setThread_self]
    exact ⟨ho, (h.holds_of_running hrun ho).pos, (h.holds_of_running hrun ho).numLocks⟩
  · refine h.setThread _ ?_ ⟨hrun.ne_waiting, by simp⟩
    rw [At, threads_setThread_self]
    exact ⟨ho, (h.apart_of_running hrun ho).depth⟩

theorem Inv.mutexUnlock (h : s.Inv) (hrun : s.Running tid) (ht : s.mutexUnlock tid = some t) :
    t.Inv := by
  unfold MutexState.mutexUnlock at ht
  split_ifs at ht with ho
  cases ht
  refine h.setThread _ ?_ ⟨hrun.ne_waiting, by simp⟩
  rw [At, threads_setThread_self]
  exact ⟨ho, (h.holds_of_running hrun ho).pos, (h.holds_of_running hrun ho).numLocks⟩

/-- The owner sets `numLocks` to its new depth. -/
theorem Inv.setLocks (h : s.Inv) {v : Int32} {n : ℕ} {x : MutexThread} (ho : s.owner = some tid)
    (hx : s.threads tid ≠ .waiting false)
    (hat : (({ s with numLocks := v }.setDepth tid n).setThread tid x).At tid)
    (hnew : x ≠ .waiting false) :
    (({ s with numLocks := v }.setDepth tid n).setThread tid x).Inv := by
  refine h.of_thread rfl rfl rfl (fun p hp => ⟨Function.update_of_ne hp .., Function.update_of_ne hp ..,
    Iff.rfl, fun hop => ?_⟩) hat ⟨hx, (threads_setThread_self x).trans_ne hnew⟩ h.idle
  exact absurd (Option.some.inj (hop.symm.trans ho)) hp

theorem toInt_add_one {x : Int32} {n : ℕ} (hx : x.toInt = n) (hn : n < 2 ^ 31 - 1) :
    (x + 1).toInt = (n + 1 : ℕ) := by
  rw [Int32.toInt_add, hx]
  simp only [Int32.reduceToInt]
  rw [Int.bmod_eq_of_le] <;> omega

theorem toInt_sub_one {x : Int32} {n : ℕ} (hx : x.toInt = n) (hn : 0 < n) :
    (x - 1).toInt = (n - 1 : ℕ) := by
  have hlt := x.toInt_lt
  rw [Int32.toInt_sub, hx]
  simp only [Int32.reduceToInt]
  rw [Int.bmod_eq_of_le] <;> omega

/-- A thread that takes the mutex when nobody owns it. -/
theorem Inv.acquire (h : s.Inv) (hx : s.threads tid ≠ .waiting false) (ho : s.owner = none) :
    (s.acquire tid).Inv := by
  refine h.of_thread rfl rfl rfl (fun p hp => ⟨Function.update_of_ne hp .., Function.update_of_ne hp ..,
    ?_, fun hop => ?_⟩) ?_ ⟨hx, (threads_setThread_self _).trans_ne (by simp)⟩ nofun
  · rw [ho]
    exact iff_of_false (fun he => hp (Option.some.inj he).symm) nofun
  · rw [ho] at hop
    cases hop
  · rw [At, MutexState.acquire, threads_setThread_self]
    exact .inl ⟨rfl, by simp, by simp⟩

/-- A thread that has to wait is the last of the queue. -/
theorem Inv.enqueue (h : s.Inv) (ha : s.Apart tid) (hx : s.threads tid ≠ .waiting false)
    (ho : s.owner ≠ none) : (s.enqueue tid).Inv := by
  have hmem : tid ∉ s.queue := fun hm => hx ((h.queued tid).1 hm)
  refine ⟨fun p => ?_, ?_, fun p => ?_, ?_, fun hn => absurd hn ho⟩
  · by_cases hp : p = tid
    · subst hp
      rw [At, MutexState.enqueue, threads_setThread_self]
      exact ⟨ha.owner, ha.depth⟩
    · exact (h.threads p).congr (threads_setThread_ne _ hp) rfl Iff.rfl fun _ => rfl
  · exact h.nodup.append (List.nodup_singleton tid) (by simpa using hmem)
  · show p ∈ s.queue ++ [tid] ↔ _
    by_cases hp : p = tid
    · subst hp
      exact iff_of_true (by simp) (threads_setThread_self _)
    · rw [MutexState.enqueue, threads_setThread_ne _ hp, ← h.queued p]
      simp [hp]
  · show s.arrived ++ [tid] = s.served ++ (s.queue ++ [tid])
    rw [h.fifo, List.append_assoc]

/-- The owner leaves the mutex to nobody. -/
theorem Inv.leave (h : s.Inv) (hx : s.threads tid = .unlocking) (hq : s.queue = []) :
    (({ s with owner := none } : MutexState).setThread tid (.running 0)).Inv := by
  have hat := h.threads tid
  rw [At, hx] at hat
  refine h.of_thread rfl rfl rfl (fun p hp => ⟨Function.update_of_ne hp .., rfl,
    iff_of_false nofun fun hop => ?_, fun _ => rfl⟩) ?_
    ⟨hx.trans_ne (by simp), (threads_setThread_self _).trans_ne (by simp)⟩ fun _ => hq
  · exact hp (Option.some.inj (hop.symm.trans hat.owner))
  · rw [At, threads_setThread_self]
    exact .inr ⟨nofun, hat.depth⟩

/-- The owner hands the mutex to the first thread of the queue. -/
theorem Inv.handOver {next : ℕ} {rest : List ℕ} (h : s.Inv) (hx : s.threads tid = .unlocking)
    (hq : s.queue = next :: rest) :
    ((({ s with owner := some next, queue := rest, served := s.served ++ [next] } :
      MutexState).setThread next (.waiting true)).setThread tid (.running 0)).Inv := by
  have hat := h.threads tid
  rw [At, hx] at hat
  have hwaits : s.threads next = .waiting false := (h.queued next).1 (hq ▸ List.mem_cons_self)
  have hnext := h.threads next
  rw [At, hwaits] at hnext
  have hne : next ≠ tid := fun he => by rw [he, hx] at hwaits; cases hwaits
  have hnodup := h.nodup
  rw [hq, List.nodup_cons] at hnodup
  refine ⟨fun p => ?_, hnodup.2, fun p => ?_, ?_, nofun⟩
  · by_cases hp : p = tid
    · subst hp
      rw [At, threads_setThread_self]
      exact .inr ⟨fun he => hne (Option.some.inj he), hat.depth⟩
    by_cases hpn : p = next
    · subst hpn
      rw [At, threads_setThread_ne _ hp, threads_setThread_self]
      exact ⟨rfl, hnext.depth⟩
    · refine (h.threads p).congr ?_ rfl (iff_of_false ?_ ?_) fun _ => rfl
      · rw [threads_setThread_ne _ hp, threads_setThread_ne _ hpn]
      · exact fun he => hpn (Option.some.inj he).symm
      · exact fun he => hp (Option.some.inj (he.symm.trans hat.owner))
  · show p ∈ rest ↔ _
    have hqueued := h.queued p
    rw [hq, List.mem_cons] at hqueued
    by_cases hp : p = tid
    · subst hp
      rw [threads_setThread_self]
      exact iff_of_false (fun hm => by simp [hx] at hqueued; exact hqueued.2 hm) (by simp)
    by_cases hpn : p = next
    · subst hpn
      rw [threads_setThread_ne _ hp, threads_setThread_self]
      exact iff_of_false hnodup.1 (by simp)
    · rw [threads_setThread_ne _ hp, threads_setThread_ne _ hpn, ← hqueued]
      exact (or_iff_right hpn).symm
  · show s.arrived = (s.served ++ [next]) ++ rest
    rw [h.fifo, hq, List.append_assoc, List.singleton_append]

/-- A thread that holds the mutex does not lock it more than `2 ^ 31 - 1` times. -/
def DepthFits (s : MutexState) (op : MutexOp) : Prop :=
  ∀ tid, op = .resume tid → s.threads tid = .nesting → s.depth tid < 2 ^ 31 - 1

theorem Inv.resume (h : s.Inv) (hfits : s.DepthFits (.resume tid)) (ht : s.resume tid = some t) :
    t.Inv := by
  have hat := h.threads tid
  unfold MutexState.resume at ht
  unfold At at hat
  split at ht <;> rename_i hx <;> rw [hx] at hat
  case h_1 => cases ht
  case h_2 =>
    cases ht
    refine h.setLocks hat.owner (hx.trans_ne (by simp)) ?_ (by simp)
    rw [At, threads_setThread_self]
    refine .inl ⟨hat.owner, by simp, ?_⟩
    rw [numLocks_setThread, depth_setThread, depth_setDepth, numLocks_setDepth]
    exact toInt_add_one hat.numLocks (hfits tid rfl hx)
  case h_3 =>
    cases ht
    split_ifs with ho
    · exact h.acquire (hx.trans_ne (by simp)) ho
    · exact h.enqueue hat (hx.trans_ne (by simp)) ho
  case h_4 =>
    cases ht
    split_ifs with ho
    · exact h.acquire (hx.trans_ne (by simp)) ho
    · refine h.setThread _ ?_ ⟨hx.trans_ne (by simp), by simp⟩
      rw [At, threads_setThread_self]
      exact .inr ⟨hat.owner, hat.depth⟩
  case h_5 awaken =>
    cases ht
    cases awaken with
    | false =>
      -- a spurious wakeup
      have hsame : s.setThread tid (.waiting false) = s := by
        rw [MutexState.setThread, ← hx, Function.update_eq_self]
      simpa [hsame] using h
    | true =>
      refine h.setThread _ ?_ ⟨hx.trans_ne (by simp), by simp⟩
      rw [At, threads_setThread_self]
      exact ⟨hat.owner, hat.depth⟩
  case h_6 =>
    cases ht
    refine h.setLocks hat.owner (hx.trans_ne (by simp)) ?_ (by simp)
    rw [At, threads_setThread_self]
    exact .inl ⟨hat.owner, by simp, by simp⟩
  case h_7 =>
    cases ht
    have hlocks := toInt_sub_one hat.numLocks hat.pos
    refine h.setLocks hat.owner (hx.trans_ne (by simp)) ?_ (by split_ifs <;> simp)
    rw [At, threads_setThread_self]
    split_ifs with hzero
    · refine .inl ⟨hat.owner, ?_, ?_⟩
      · have hne : (s.numLocks - 1).toInt ≠ 0 := fun he => hzero (Int32.toInt_inj.1 he)
        simp only [depth_setThread, depth_setDepth]
        omega
      · rwa [numLocks_setThread, depth_setThread, depth_setDepth, numLocks_setDepth]
    · refine ⟨hat.owner, ?_⟩
      rw [Decidable.not_not.1 hzero, Int32.toInt_zero] at hlocks
      simp only [depth_setThread, depth_setDepth]
      omega
  case h_8 =>
    cases ht
    unfold release
    split
    · next hq => exact h.leave hx hq
    · next hq => exact h.handOver hx hq

theorem Inv.step {op : MutexOp} (h : s.Inv) (hfits : s.DepthFits op) (ht : s.Step op t) : t.Inv := by
  cases op with
  | lock tid =>
    obtain ⟨hrun, rfl⟩ := ht
    exact h.mutexLock hrun
  | tryLock tid =>
    obtain ⟨hrun, rfl⟩ := ht
    exact h.mutexTryLock hrun
  | unlock tid => exact h.mutexUnlock ht.1 ht.2
  | resume tid => exact h.resume hfits ht

theorem mutexInit_inv : mutexInit.Inv where
  threads _ := .inr ⟨nofun, rfl⟩
  nodup := List.nodup_nil
  queued _ := iff_of_false (by simp [mutexInit]) (by simp [mutexInit])
  fifo := rfl
  idle _ := rfl

end MutexState

/-! ## Main result -/

/-- What a mutex is for.  A thread is inside if it has locked the mutex and not yet unlocked it. -/
structure MutexState.Ok (s : MutexState) : Prop where
  exclusive : ∀ p q, 0 < s.depth p → 0 < s.depth q → p = q
  owner : ∀ p, 0 < s.depth p → s.owner = some p
  /-- The threads that had to wait get the mutex in the order in which they came. -/
  fifo : s.arrived = s.served ++ s.queue
  /-- Nobody waits for a mutex without an owner. -/
  idle : s.owner = none → s.queue = []
  /-- An owner that is not in a call finds its nesting depth in `numLocks`. -/
  nesting : ∀ p, s.owner = some p → s.Running p → s.numLocks.toInt = s.depth p

theorem MutexState.Inv.owner_of_pos {s : MutexState} {p : ℕ} (h : s.Inv) (hp : 0 < s.depth p) :
    s.owner = some p := by
  have hne : s.depth p ≠ 0 := Nat.ne_of_gt hp
  have hat := h.threads p
  unfold At at hat
  split at hat
  case h_1 => exact hat.elim Holds.owner fun ha => absurd ha.depth hne
  case h_2 | h_3 => exact hat.owner
  all_goals exact absurd hat.depth hne

theorem MutexState.Inv.ok {s : MutexState} (h : s.Inv) : s.Ok where
  exclusive _ _ hp hq := Option.some.inj ((h.owner_of_pos hp).symm.trans (h.owner_of_pos hq))
  owner _ hp := h.owner_of_pos hp
  fifo := h.fifo
  idle := h.idle
  nesting _ ho hrun := (h.holds_of_running hrun ho).numLocks

theorem mutex_ok {s : MutexState} (h : mutexSystem.ReachesBy MutexState.DepthFits s) : s.Ok :=
  (h.invariant (fun _ hs => hs ▸ MutexState.mutexInit_inv)
    fun _ _ _ hs hfits ht => hs.step hfits ht).ok

/-- A thread has locked the mutex `n` times, and nobody else has called. -/
def nested (n : ℕ) : MutexState :=
  ⟨some 0, .ofNat n, [], fun _ => .running 0, Function.update (fun _ => 0) 0 n, [], []⟩

theorem nested_one {c : MutexState → MutexOp → Prop} (h₁ : c mutexInit (.lock 0))
    (h₂ : c (mutexInit.mutexLock 0) (.resume 0)) : mutexSystem.ReachesBy c (nested 1) := by
  have hlock : mutexSystem.ReachesBy c (mutexInit.mutexLock 0) :=
    .step (.init rfl) h₁ ⟨⟨0, rfl⟩, rfl⟩
  refine hlock.step h₂ ?_
  show (mutexInit.mutexLock 0).resume 0 = _
  simp [MutexState.resume, MutexState.mutexLock, mutexInit, MutexState.setThread,
    MutexState.acquire, MutexState.setDepth, nested]

theorem nested_reachable (n : ℕ) : mutexSystem.Reachable (nested (n + 1)) := by
  induction n with
  | zero => exact nested_one trivial trivial
  | succ n ih =>
    have hlock : mutexSystem.Reachable ((nested (n + 1)).mutexLock 0) :=
      ih.step trivial (a := .lock 0) ⟨⟨0, rfl⟩, rfl⟩
    refine hlock.step trivial (a := .resume 0) ?_
    show ((nested (n + 1)).mutexLock 0).resume 0 = _
    simp [MutexState.resume, MutexState.mutexLock, MutexState.setThread, MutexState.setDepth, nested]

theorem mutex_ok_nested : (nested 1).Ok ∧ (nested 1).owner = some 0 ∧ (nested 1).depth 0 = 1 :=
  ⟨mutex_ok (nested_one nofun fun tid h hn => by
    obtain rfl : 0 = tid := MutexOp.resume.inj h
    exact absurd hn (by decide)), rfl, rfl⟩

/-- After `2 ^ 31` nested calls `numLocks` has wrapped around. -/
theorem nesting_overflows : ∃ s, mutexSystem.Reachable s ∧ s.owner = some 0 ∧ s.Running 0 ∧
    s.numLocks.toInt ≠ s.depth 0 :=
  ⟨_, nested_reachable 2147483647, rfl, ⟨0, rfl⟩, by
    have hdepth : (nested (2147483647 + 1)).depth 0 = 2147483648 := rfl
    rw [hdepth]
    decide⟩

end Glidix.Thread
