import Mathlib.Data.List.Nodup
import Glidix.Thread.Semaphore

/-!
# Lost wakeups

A wakeup is not lost when units are available and threads are queued only while some thread that
was taken off the queue is still to run (`NoLostWakeup`).  Every step keeps this, except one that
takes the last units of a terminated semaphore, which turns the count to `-1` without waking anybody
(`SemInv.noLostWakeup_iff`).
-/

namespace Glidix.Thread

/-- Some thread was dequeued with `give = 1` and has not run yet. -/
def SemState.SomeGiven (s : SemState) : Prop := ∃ tid, (s.threads tid).given = true

/-- With units available and threads in the queue, some hand-off is under way. -/
def SemState.NoLostWakeup (s : SemState) : Prop :=
  s.sem.count ≠ 0 → s.sem.queue ≠ [] → s.SomeGiven

/-- The thread and the number of units wanted, when the operation takes units if there are any. -/
def SemState.takes (s : SemState) : SemOp → Option (ℕ × Int32)
  | .wait tid args _ =>
    if args.count = 0 then none
    else some (tid, if args.count = -1 then s.sem.count else args.count)
  | .resume tid _ _ =>
    match s.threads tid with
    | .waiting args true => some (tid, args.count)
    | _ => none
  | _ => none

/-- The semaphore is terminated, and taking `count` units leaves none. -/
def SemState.LastUnits (s : SemState) (count : Int32) : Prop :=
  s.sem.terminated = true ∧ s.sem.count ≠ 0 ∧ s.sem.count ≠ -1 ∧ s.sem.count ≤ count

/-- The condition on a step: whoever takes the last units of a terminated semaphore leaves no thread
in the queue, or another dequeued thread that has not run yet. -/
def SemState.StepOk (s : SemState) (op : SemOp) : Prop :=
  ∀ tid count, s.takes op = some (tid, count) → s.LastUnits count →
    s.sem.queue = [] ∨ ∃ u ≠ tid, (s.threads u).given = true

/-! ## The queue -/

/-- The queue is in order, leaving the thread `tid` out of account. -/
structure QueueExcept (tid : ℕ) (s : SemState) : Prop where
  nodup : s.sem.queue.Nodup
  mem_queue : ∀ u ≠ tid, u ∈ s.sem.queue ↔ (s.threads u).queued = true

/-- The queue holds the sleeping threads that were not given anything, and a terminated semaphore has
a count other than zero. -/
structure SemInv (s : SemState) : Prop where
  nodup : s.sem.queue.Nodup
  mem_queue : ∀ u, u ∈ s.sem.queue ↔ (s.threads u).queued = true
  terminated : s.sem.terminated = true → s.sem.count ≠ 0

section Queue

variable {s t : SemState} {tid u : ℕ} {x : SemThread}

theorem SemThread.not_queued_of_given (h : x.given = true) : x.queued = false := by
  cases x <;> simp_all [SemThread.given, SemThread.queued]

theorem SemThread.given_giveTo (h : x.queued = true) : x.giveTo.given = true := by
  cases x <;> simp_all [SemThread.given, SemThread.queued, SemThread.giveTo]

theorem SemThread.not_queued_giveTo : x.giveTo.queued = false := by
  cases x <;> rfl

theorem SemState.given_setThread_of_ne (h : u ≠ tid) :
    ((s.setThread tid x).threads u).given = (s.threads u).given := by
  simp only [SemState.setThread, Function.update_of_ne h]

theorem SemInv.queueExcept (h : SemInv s) (tid : ℕ) : QueueExcept tid s :=
  ⟨h.nodup, fun u _ => h.mem_queue u⟩

theorem QueueExcept.enqueue (h : QueueExcept tid s) (hnew : tid ∉ s.sem.queue) :
    QueueExcept tid (s.enqueue tid) where
  nodup := by
    rw [SemState.enqueue, List.nodup_append]
    refine ⟨h.nodup, List.nodup_singleton tid, fun a ha b hb => ?_⟩
    rw [List.mem_singleton.1 hb]
    exact fun e => hnew (e ▸ ha)
  mem_queue u hu := by
    simp only [SemState.enqueue, List.mem_append, List.mem_singleton, or_iff_left hu]
    exact h.mem_queue u hu

theorem QueueExcept.dequeue (h : QueueExcept tid s) : QueueExcept tid (s.dequeue tid) where
  nodup := h.nodup.erase tid
  mem_queue u hu := by
    rw [SemState.dequeue, List.mem_erase_of_ne hu]
    exact h.mem_queue u hu

theorem QueueExcept.notMem_dequeue (h : QueueExcept tid s) : tid ∉ (s.dequeue tid).sem.queue :=
  fun hm => (h.nodup.mem_erase_iff.1 hm).1 rfl

/-- Settling the state of the thread that was left out. -/
theorem QueueExcept.setThread (h : QueueExcept tid s) (hx : tid ∈ s.sem.queue ↔ x.queued = true)
    (hterm : s.sem.terminated = true → s.sem.count ≠ 0) : SemInv (s.setThread tid x) where
  nodup := h.nodup
  mem_queue u := by
    by_cases hu : u = tid
    · simpa only [hu, SemState.setThread, Function.update_self] using hx
    · simpa only [SemState.setThread, Function.update_of_ne hu] using h.mem_queue u hu
  terminated := hterm

theorem SemInv.setRunning (h : SemInv s) (htid : (s.threads tid).queued = false) (result : Int32) :
    SemInv (s.setThread tid (.running result)) :=
  (h.queueExcept tid).setThread (by rw [h.mem_queue, htid]; rfl) h.terminated

theorem SemInv.setCount (h : SemInv s) (count : Int32)
    (hc : s.sem.terminated = true → count ≠ 0) : SemInv (s.setCount count) :=
  ⟨h.nodup, h.mem_queue, hc⟩

theorem SemInv.wakeFirst (h : SemInv s) : SemInv s.wakeFirst := by
  rcases hq : s.sem.queue with _ | ⟨tid, rest⟩
  · simpa only [SemState.wakeFirst, hq] using h
  · have hnodup := h.nodup
    rw [hq, List.nodup_cons] at hnodup
    simp only [SemState.wakeFirst, hq]
    refine ⟨hnodup.2, fun u => ?_, h.terminated⟩
    by_cases hu : u = tid
    · simp only [hu, Function.update_self, SemThread.not_queued_giveTo, hnodup.1, Bool.false_eq_true]
    · simp only [Function.update_of_ne hu, ← h.mem_queue u, hq, List.mem_cons, or_iff_right hu]

/-- A hand-off reaches a thread of the queue. -/
theorem SemInv.exists_given_wakeFirst (h : SemInv s) (hne : s.wakeFirst.sem.queue ≠ []) :
    ∃ u ∈ s.sem.queue, (s.wakeFirst.threads u).given = true := by
  rcases hq : s.sem.queue with _ | ⟨tid, rest⟩
  · simp only [SemState.wakeFirst, hq] at hne
    exact absurd rfl hne
  · refine ⟨tid, List.mem_cons_self, ?_⟩
    simp only [SemState.wakeFirst, hq, Function.update_self]
    exact SemThread.given_giveTo ((h.mem_queue tid).1 (hq ▸ List.mem_cons_self))

theorem SemInv.noLostWakeup_wakeFirst (h : SemInv s) : s.wakeFirst.NoLostWakeup :=
  fun _ hne => (h.exists_given_wakeFirst hne).imp fun _ hu => hu.2

/-- Threads may leave the queue, and other threads may run, as long as the hand-offs stay. -/
theorem SemState.NoLostWakeup.mono (h : s.NoLostWakeup) (hcount : t.sem.count = s.sem.count)
    (hqueue : t.sem.queue ≠ [] → s.sem.queue ≠ [])
    (hgiven : ∀ u, (s.threads u).given = true → (t.threads u).given = true) : t.NoLostWakeup :=
  fun hc hq => (h (hcount ▸ hc) (hqueue hq)).imp hgiven

theorem SemState.noLostWakeup_of_count (h : s.sem.count = 0) : s.NoLostWakeup :=
  fun hc => absurd h hc

end Queue

/-! ## The steps -/

section Step

variable {s t : SemState} {tid : ℕ} {args : WaitArgs} {env : WaitEnv}

/-- What a step has to be shown to do: it keeps the queue in order, and it keeps wakeups from being
lost under exactly the condition `c`. -/
structure Keeps (s t : SemState) (c : Prop) : Prop where
  inv : SemInv t
  iff : s.NoLostWakeup → (t.NoLostWakeup ↔ c)

theorem Keeps.of_noLost {c : Prop} (hinv : SemInv t) (hno : s.NoLostWakeup → t.NoLostWakeup)
    (hc : c) : Keeps s t c :=
  ⟨hinv, fun hs => iff_of_true (hno hs) hc⟩

theorem Keeps.congr {c d : Prop} (h : Keeps s t c) (hcd : c ↔ d) : Keeps s t d :=
  ⟨h.inv, fun hs => (h.iff hs).trans hcd⟩

theorem SemState.stepOk_iff {op : SemOp} {count : Int32} (h : s.takes op = some (tid, count)) :
    (s.LastUnits count → s.sem.queue = [] ∨ ∃ u ≠ tid, (s.threads u).given = true) ↔
      s.StepOk op := by
  constructor
  · rintro hl u c he
    obtain ⟨rfl, rfl⟩ := Prod.mk.inj (Option.some_inj.1 (h.symm.trans he))
    exact hl
  · exact fun hok => hok tid count h

theorem SemState.stepOk_of_none (op : SemOp) (h : s.takes op = none) : True ↔ s.StepOk op :=
  iff_of_true trivial fun _ _ he => by rw [h] at he; cases he

theorem semUnits_left_eq_zero {avail count : Int32} :
    (semUnits avail count).2 = 0 ↔ avail ≠ -1 ∧ avail ≤ count := by
  unfold semUnits
  split_ifs with h₁ h₂
  · simp [h₁]
  · rw [Int32.sub_eq_iff_eq_add, Int32.zero_add]
    exact ⟨fun h => ⟨h₁, h ▸ Int32.le_refl _⟩, fun h => Int32.le_antisymm h.2 h₂⟩
  · exact ⟨fun _ => ⟨h₁, Int32.le_of_lt (Int32.not_le.1 h₂)⟩, fun _ => rfl⟩

/-- Taking units. -/
theorem semTake_keeps (h : SemInv s) (htid : (s.threads tid).queued = false)
    (hcount : s.sem.count ≠ 0) (count : Int32) :
    Keeps s (semTake s tid count) (s.LastUnits count → s.sem.queue = [] ∨
      ∃ u ≠ tid, (s.threads u).given = true) := by
  have hrun := h.setRunning htid (semUnits s.sem.count count).1
  have hlast : s.LastUnits count ↔
      s.sem.terminated = true ∧ (semUnits s.sem.count count).2 = 0 := by
    rw [semUnits_left_eq_zero]
    exact ⟨fun h => ⟨h.1, h.2.2⟩, fun h => ⟨h.1, hcount, h.2⟩⟩
  unfold semTake
  by_cases hleft : (semUnits s.sem.count count).2 = 0
  · by_cases hterm : s.sem.terminated = true
    · -- the last units of a terminated semaphore: nobody is woken
      simp only [hleft, ne_eq, not_true_eq_false, if_false, SemState.setCount, SemState.setThread,
        hterm, if_true]
      refine ⟨⟨hrun.nodup, hrun.mem_queue, fun _ => show (-1 : Int32) ≠ 0 by decide⟩, fun _ => ?_⟩
      rw [hlast, eq_true hterm, eq_true hleft, and_self, true_imp_iff]
      constructor
      · intro hno
        by_cases hq : s.sem.queue = []
        · exact Or.inl hq
        · obtain ⟨u, hu⟩ := hno (show (-1 : Int32) ≠ 0 by decide) hq
          have hne : u ≠ tid := by
            rintro rfl
            simp [SemThread.given] at hu
          exact Or.inr ⟨u, hne, by simpa only [Function.update_of_ne hne] using hu⟩
      · rintro (hq | ⟨u, hne, hu⟩) _ hne'
        · exact absurd hq hne'
        · exact ⟨u, by simpa only [Function.update_of_ne hne] using hu⟩
    · simp only [hleft, ne_eq, not_true_eq_false, if_false, SemState.setCount, SemState.setThread,
        Bool.not_eq_true _ ▸ hterm, Bool.false_eq_true]
      exact .of_noLost ⟨hrun.nodup, hrun.mem_queue, fun ht => absurd ht Bool.false_ne_true⟩
        (fun _ => SemState.noLostWakeup_of_count rfl) fun hl => absurd hl.1 hterm
  · have hset := hrun.setCount (semUnits s.sem.count count).2 fun _ => hleft
    simp only [ne_eq, hleft, not_false_eq_true, if_true]
    exact .of_noLost hset.wakeFirst (fun _ => hset.noLostWakeup_wakeFirst)
      fun hl => absurd (hlast.1 hl).2 hleft

/-- A thread that is not among those dequeued changes its state; the queue may shrink. -/
theorem SemState.NoLostWakeup.setThread {x : SemThread} (hs : s.NoLostWakeup)
    (hcount : t.sem.count = s.sem.count) (hqueue : t.sem.queue ≠ [] → s.sem.queue ≠ [])
    (hthreads : t.threads = Function.update s.threads tid x)
    (hgiven : (s.threads tid).given = false) : t.NoLostWakeup :=
  hs.mono hcount hqueue fun u hu => by
    have hne : u ≠ tid := by
      rintro rfl
      exact Bool.false_ne_true (hgiven.symm.trans hu)
    rw [hthreads, Function.update_of_ne hne]
    exact hu

/-- What is known of a thread that is in the queue: it may have put itself there in this step, when
there are no units. -/
structure InQueue (tid : ℕ) (s : SemState) : Prop where
  queue : QueueExcept tid s
  mem : tid ∈ s.sem.queue
  terminated : s.sem.terminated = true → s.sem.count ≠ 0
  given : (s.threads tid).given = false ∨ s.sem.count = 0

theorem SemInv.inQueue (h : SemInv s) (htid : (s.threads tid).queued = true) : InQueue tid s where
  queue := h.queueExcept tid
  mem := (h.mem_queue tid).2 htid
  terminated := h.terminated
  given := Or.inl (by
    by_contra hg
    rw [Bool.not_eq_false] at hg
    exact Bool.false_ne_true ((SemThread.not_queued_of_given hg).symm.trans htid))

theorem SemInv.inQueue_enqueue (h : SemInv s) (htid : (s.threads tid).queued = false)
    (hzero : s.sem.count = 0) : InQueue tid (s.enqueue tid) where
  queue := (h.queueExcept tid).enqueue fun hm => by
    rw [h.mem_queue, htid] at hm
    exact Bool.false_ne_true hm
  mem := List.mem_append_right _ (List.mem_singleton_self _)
  terminated := h.terminated
  given := Or.inr hzero

theorem InQueue.leave_keeps (h : InQueue tid s) (result : Int32) :
    Keeps s ((s.dequeue tid).setThread tid (.running result)) True := by
  refine .of_noLost (h.queue.dequeue.setThread
    (iff_of_false h.queue.notMem_dequeue Bool.false_ne_true) h.terminated) (fun hs => ?_) trivial
  rcases h.given with hgiven | hzero
  · exact hs.setThread rfl (fun _ => List.ne_nil_of_mem h.mem) rfl hgiven
  · exact SemState.noLostWakeup_of_count hzero

theorem InQueue.stay_keeps (h : InQueue tid s) {x : SemThread} (hx : x.queued = true) :
    Keeps s (s.setThread tid x) True := by
  refine .of_noLost (h.queue.setThread (iff_of_true h.mem hx) h.terminated) (fun hs => ?_) trivial
  rcases h.given with hgiven | hzero
  · exact hs.setThread rfl id rfl hgiven
  · exact SemState.noLostWakeup_of_count hzero

/-- A thread in the queue looks at its deadline and its signals, and sleeps on or leaves. -/
theorem semSleep_keeps (h : InQueue tid s) (args : WaitArgs) (env : WaitEnv) :
    Keeps s (semSleep s tid args env) True := by
  unfold semSleep
  split_ifs
  · exact h.leave_keeps _
  · exact h.leave_keeps _
  · exact h.stay_keeps rfl

/-- A thread outside the queue tries to take units. -/
theorem semAcquire_keeps (h : SemInv s) (htid : (s.threads tid).queued = false)
    (args : WaitArgs) (env : WaitEnv) :
    Keeps s (semAcquire s tid args env) (s.LastUnits args.count → s.sem.queue = [] ∨
      ∃ u ≠ tid, (s.threads u).given = true) := by
  unfold semAcquire
  split_ifs with hzero hnb
  · exact .of_noLost (h.setRunning htid _) (fun _ => SemState.noLostWakeup_of_count hzero)
      fun hl => absurd hzero hl.2.1
  · have hkeep := semSleep_keeps (h.inQueue_enqueue htid hzero) args env
    exact .of_noLost hkeep.inv
      (fun _ => (hkeep.iff (SemState.noLostWakeup_of_count hzero)).2 trivial)
      fun hl => absurd hzero hl.2.1
  · exact semTake_keeps h htid hzero args.count

/-- A polling thread that was given nothing. -/
theorem semPollTurn_keeps (h : InQueue tid s) (timed : Bool) (free : ℕ) (env : WaitEnv) :
    Keeps s (semPollTurn s tid timed false free env) True := by
  unfold semPollTurn
  split_ifs
  · exact h.leave_keeps _
  · exact h.leave_keeps _
  · exact h.leave_keeps _
  · exact h.stay_keeps rfl

/-- A polling thread passes its hand-off on. -/
theorem semPollLeave_keeps (h : SemInv s) (htid : (s.threads tid).queued = false)
    (result : Int32) : Keeps s (semPollLeave s tid true result) True := by
  have hnotMem : tid ∉ s.sem.queue := fun hm => by
    rw [h.mem_queue, htid] at hm
    exact Bool.false_ne_true hm
  have hw := h.wakeFirst
  have hleft : tid ∉ s.wakeFirst.sem.queue := by
    rcases hq : s.sem.queue with _ | ⟨u, rest⟩ <;> simp only [SemState.wakeFirst, hq]
    · exact List.not_mem_nil
    · exact fun hm => hnotMem (hq ▸ List.mem_cons_of_mem u hm)
  refine .of_noLost ((hw.queueExcept tid).setThread (iff_of_false hleft Bool.false_ne_true)
    hw.terminated) (fun _ _ hne => ?_) trivial
  obtain ⟨u, hu, hgiven⟩ := h.exists_given_wakeFirst hne
  have hne : u ≠ tid := fun e => hnotMem (e ▸ hu)
  exact ⟨u, (SemState.given_setThread_of_ne hne).trans hgiven⟩

theorem semPoll_keeps (h : SemInv s) (htid : (s.threads tid).queued = false)
    (hgiven : (s.threads tid).given = false) (nonblock timed : Bool) (others : ℕ) (env : WaitEnv) :
    Keeps s (semPoll s tid nonblock timed others env) True := by
  simp only [semPoll]
  by_cases hfree : (if s.sem.count ≠ 0 then 1 else 0) + others ≠ 0 ∨ nonblock = true
  · rw [if_pos hfree]
    exact .of_noLost (h.setRunning htid _) (fun hs => hs.setThread rfl id rfl hgiven) trivial
  · rw [if_neg hfree]
    have hzero : s.sem.count = 0 := by
      by_contra hne
      simp [hne] at hfree
    have hkeep := semPollTurn_keeps (h.inQueue_enqueue htid hzero) timed 0 env
    exact .of_noLost hkeep.inv
      (fun _ => (hkeep.iff (SemState.noLostWakeup_of_count hzero)).2 trivial) trivial

theorem semWaitGen_keeps (h : SemInv s) (htid : (s.threads tid).queued = false)
    (hgiven : (s.threads tid).given = false) (args : WaitArgs) (env : WaitEnv) :
    Keeps s (semWaitGen s tid args env) (s.StepOk (.wait tid args env)) := by
  have hback : ∀ {c : Prop}, c → ∀ result, Keeps s (s.setThread tid (.running result)) c :=
    fun hc result =>
      .of_noLost (h.setRunning htid _) (fun hs => hs.setThread rfl id rfl hgiven) hc
  unfold semWaitGen
  by_cases h₀ : args.count = 0
  · rw [if_pos h₀]
    exact (hback trivial _).congr (SemState.stepOk_of_none _ (if_pos h₀))
  by_cases h₁ : args.count = -1
  · have htakes : s.takes (.wait tid args env) = some (tid, s.sem.count) := by
      rw [SemState.takes, if_neg h₀, if_pos h₁]
    rw [if_neg h₀, if_pos h₁]
    refine Keeps.congr ?_ (SemState.stepOk_iff htakes)
    by_cases hzero : s.sem.count = 0
    · rw [if_pos hzero]
      exact hback (fun hl => absurd hzero hl.2.1) _
    · rw [if_neg hzero]
      exact semAcquire_keeps h htid { args with count := s.sem.count } env
  · have htakes : s.takes (.wait tid args env) = some (tid, args.count) := by
      rw [SemState.takes, if_neg h₀, if_neg h₁]
    rw [if_neg h₀, if_neg h₁]
    exact (semAcquire_keeps h htid args env).congr (SemState.stepOk_iff htakes)

theorem semResume_keeps (h : SemInv s) {others : ℕ} (ht : semResume s tid others env = some t) :
    Keeps s t (s.StepOk (.resume tid others env)) := by
  unfold semResume at ht
  split at ht <;> rename_i hthread
  · cases ht
  · cases ht
    exact (semAcquire_keeps h (by rw [hthread]; rfl) _ env).congr
      (SemState.stepOk_iff (by rw [SemState.takes, hthread]))
  · cases ht
    exact (semSleep_keeps (h.inQueue (by rw [hthread]; rfl)) _ env).congr
      (SemState.stepOk_of_none _ (by rw [SemState.takes, hthread]))
  · rename_i timed give
    cases ht
    have hnone := SemState.stepOk_of_none (.resume tid others env)
      (by rw [SemState.takes, hthread])
    cases give with
    | true =>
      simp only [if_true, semPollTurn, if_pos (Nat.add_pos_left Nat.one_pos others)]
      exact (semPollLeave_keeps h (by rw [hthread]; rfl) _).congr hnone
    | false =>
      exact (semPollTurn_keeps (h.inQueue (by rw [hthread]; rfl)) timed _ env).congr hnone

theorem semSignal2_keeps (h : SemInv s) {count : Int32} (ht : semSignal2 s count = some t) :
    Keeps s t True := by
  unfold semSignal2 at ht
  split_ifs at ht with h₁ h₂ h₃ <;> cases ht
  · exact .of_noLost h id trivial
  · exact .of_noLost h id trivial
  · have hset := h.setCount (s.sem.count + count) fun hterm => absurd hterm h₃
    exact .of_noLost hset.wakeFirst (fun _ => hset.noLostWakeup_wakeFirst) trivial

theorem semTerminate_keeps (h : SemInv s) (ht : semTerminate s = some t) : Keeps s t True := by
  unfold semTerminate at ht
  by_cases hzero : s.sem.count = 0
  · have hset : SemInv (SemState.setCount { s with sem := { s.sem with terminated := true } } (-1)) :=
      ⟨h.nodup, h.mem_queue, fun _ => show (-1 : Int32) ≠ 0 by decide⟩
    simp only [hzero, if_true] at ht
    split_ifs at ht
    cases ht
    exact .of_noLost hset.wakeFirst (fun _ => hset.noLostWakeup_wakeFirst) trivial
  · simp only [hzero, if_false] at ht
    split_ifs at ht
    cases ht
    exact .of_noLost ⟨h.nodup, h.mem_queue, fun _ => hzero⟩ (fun hs => hs.mono rfl id fun _ => id)
      trivial

/-- Every step keeps the queue in order, and keeps wakeups from being lost exactly under `StepOk`. -/
theorem SemInv.step (h : SemInv s) {op : SemOp} (ht : s.Step op t) : Keeps s t (s.StepOk op) := by
  have hrun : ∀ {tid}, s.Running tid →
      (s.threads tid).queued = false ∧ (s.threads tid).given = false := by
    rintro tid ⟨result, hr⟩
    rw [hr]
    exact ⟨rfl, rfl⟩
  cases op with
  | wait tid args env => exact ht.2 ▸ semWaitGen_keeps h (hrun ht.1).1 (hrun ht.1).2 args env
  | poll tid nonblock timed others env =>
    exact (ht.2 ▸ semPoll_keeps h (hrun ht.1).1 (hrun ht.1).2 nonblock timed others env).congr
      (SemState.stepOk_of_none _ rfl)
  | resume tid others env => exact semResume_keeps h ht
  | signal count => exact (semSignal2_keeps h ht).congr (SemState.stepOk_of_none _ rfl)
  | terminate => exact (semTerminate_keeps h ht).congr (SemState.stepOk_of_none _ rfl)

end Step

/-! ## Runs -/

/-- In every state of a run whose steps meet `StepOk` no wakeup is lost, and once a terminated
semaphore has no dequeued thread that is still to run, nobody is left in the queue.  A step from
such a state loses a wakeup exactly when it does not meet `StepOk`. -/
theorem sem_noLostWakeup_iff (s : SemState) (h : semSystem.ReachesBy SemState.StepOk s) :
    s.NoLostWakeup ∧ (s.sem.terminated = true → ¬ s.SomeGiven → s.sem.queue = []) ∧
      ∀ op t, s.Step op t → (t.NoLostWakeup ↔ s.StepOk op) := by
  obtain ⟨hinv, hno⟩ : SemInv s ∧ s.NoLostWakeup := by
    refine h.invariant (I := fun s => SemInv s ∧ s.NoLostWakeup) ?_ fun s op t hs hc ht =>
      ⟨(hs.1.step ht).inv, ((hs.1.step ht).iff hs.2).2 hc⟩
    rintro s ⟨count, rfl⟩
    refine ⟨⟨List.nodup_nil, fun u => ?_, fun ht => absurd ht Bool.false_ne_true⟩,
      fun _ hq => absurd rfl hq⟩
    exact iff_of_false List.not_mem_nil Bool.false_ne_true
  refine ⟨hno, fun hterm hgiven => ?_, fun op t ht => (hinv.step ht).iff hno⟩
  by_contra hq
  exact hgiven (hno (hinv.terminated hterm) hq)

/-- The condition is met by a thread that takes the only unit of a semaphore. -/
theorem sem_noLostWakeup_iff_mutex :
    let s := semWaitGen ⟨semInit2 1, fun _ => .running 0⟩ 1 ⟨1, false, false, false⟩ ⟨false, false⟩
    s.NoLostWakeup ∧ (s.sem.terminated = true → ¬ s.SomeGiven → s.sem.queue = []) ∧
      ∀ op t, s.Step op t → (t.NoLostWakeup ↔ s.StepOk op) :=
  sem_noLostWakeup_iff _ (.step (a := .wait 1 ⟨1, false, false, false⟩ ⟨false, false⟩)
    (.init ⟨1, rfl⟩)
    (fun _ _ _ hl => absurd (show false = true from hl.1) Bool.false_ne_true) ⟨⟨0, rfl⟩, rfl⟩)

/-! ## A wakeup that is lost -/

/-- Threads 1 and 2 wait for a unit; a unit is signalled and goes to thread 1, and the semaphore is
terminated before thread 1 runs.  When it takes the unit, thread 2 sleeps on for ever. -/
theorem sem_lostWakeup : ¬ ∀ s, semSystem.Reachable s → s.NoLostWakeup := by
  intro hall
  let args : WaitArgs := ⟨1, false, false, false⟩
  let env : WaitEnv := ⟨false, false⟩
  let s₀ : SemState := ⟨semInit2 0, fun _ => .running 0⟩
  let s₁ := semWaitGen s₀ 1 args env
  let s₂ := semWaitGen s₁ 2 args env
  let s₃ := (semSignal2 s₂ 1).getD s₂
  let s₄ := (semTerminate s₃).getD s₃
  let s₅ := (semResume s₄ 1 0 env).getD s₄
  have h₁ : semSystem.Reachable s₁ :=
    .step (a := .wait 1 args env) (.init ⟨0, rfl⟩) trivial ⟨⟨0, rfl⟩, rfl⟩
  have h₂ : semSystem.Reachable s₂ := h₁.step (a := .wait 2 args env) trivial ⟨⟨0, rfl⟩, rfl⟩
  have h₃ : semSystem.Reachable s₃ := h₂.step (a := .signal 1) trivial (show _ = _ by rfl)
  have h₄ : semSystem.Reachable s₄ := h₃.step (a := .terminate) trivial (show _ = _ by rfl)
  have h₅ : semSystem.Reachable s₅ := h₄.step (a := .resume 1 0 env) trivial (show _ = _ by rfl)
  have e₂ : s₂ = ⟨⟨0, false, [1, 2]⟩, Function.update (Function.update (fun _ => .running 0) 1
      (.waiting args false)) 2 (.waiting args false)⟩ := by rfl
  have e₃ : s₃ = ⟨⟨1, false, [2]⟩, Function.update s₂.threads 1 (.waiting args true)⟩ := by rfl
  have e₄ : s₄ = ⟨⟨1, true, [2]⟩, s₃.threads⟩ := by rfl
  have e₅ : s₅ = ⟨⟨-1, true, [2]⟩, Function.update s₄.threads 1 (.running 1)⟩ := by
    have hunits : semUnits 1 args.count = (1, 0) := by decide
    have hne : ¬ (1 : Int32) = 0 := by decide
    simp only [s₅, e₄, e₃, e₂, semResume, Function.update_self, semAcquire, semTake, hunits, hne,
      if_false, ne_eq, not_true_eq_false]
    rfl
  -- no thread is left to be woken
  obtain ⟨u, hu⟩ := hall s₅ h₅ (by rw [e₅]; decide) (by rw [e₅]; decide)
  rw [e₅, e₄, e₃, e₂] at hu
  by_cases hu₁ : u = 1 <;> by_cases hu₂ : u = 2 <;>
    simp [hu₁, hu₂, SemThread.given] at hu

end Glidix.Thread
