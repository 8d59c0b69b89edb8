import Mathlib.Algebra.BigOperators.Fin
import Mathlib.Algebra.Order.BigOperators.Group.Finset
import Mathlib.Data.Multiset.Basic
import Glidix.Lib.Runs

/-!
# The scheduler

A thread is linked into one of the run queues while it waits for a CPU.  It goes to sleep in two
steps: `waitThread` sets `THREAD_WAITING`, and a later `kyield` gives up the CPU.  A `signalThread` in
between links the thread while it is still current, and then another CPU may take it.  If no CPU takes
a thread that is current elsewhere, then no thread is current twice (`sched_ok`); that is so if no
thread is signalled between the two steps (`sched_ok_of_prompt`).

A step is what a CPU does between acquiring `schedLock` and releasing it.  A section that sets a flag
and goes on to `switchTaskUnlocked` is given as two steps, which allows more runs.
-/

namespace Glidix.Thread

abbrev NUM_PRIO_Q : ℕ := 16

/-- Nice values are between `-(NUM_PRIO_Q/2)` and `NUM_PRIO_Q/2`. -/
abbrev Nice := {n : ℤ // -8 < n ∧ n < 8}

/-- What the scheduler keeps of a thread: the flags of `THREAD_NOSCHED`, the fields of the source, and
whether `runq.thread` is set. -/
structure SchedThread where
  waiting : Bool
  terminated : Bool
  traced : Bool
  wakeCounter : Int32
  niceVal : Nice
  linked : Bool
  deriving DecidableEq

namespace SchedThread

variable (x : SchedThread)

def canSched : Bool := !(x.waiting || x.terminated || x.traced)

def getPrio : Fin NUM_PRIO_Q :=
  ⟨(8 + x.niceVal.1).toNat, by have := x.niceVal.2; change _ < 16; omega⟩

end SchedThread

/-- The threads, the current thread of each CPU, and the run queues.  The idle thread of a CPU is
always waiting and in no queue; the CPU runs it if `current` is `none`. -/
structure Sched where
  threads : ℕ → Option SchedThread
  current : ℕ → Option ℕ
  runq : Fin NUM_PRIO_Q → List ℕ

namespace Sched

variable (s : Sched)

def setThread (tid : ℕ) (x : SchedThread) : Sched :=
  { s with threads := Function.update s.threads tid (some x) }

/-- Link a thread into a run queue. -/
def link (tid : ℕ) (x : SchedThread) (prio : Fin NUM_PRIO_Q) : Sched :=
  { s.setThread tid { x with linked := true } with
    runq := Function.update s.runq prio (s.runq prio ++ [tid]) }

/-- The first thread of the first run queue that is not empty. -/
def first : Option (Fin NUM_PRIO_Q × ℕ) :=
  (List.finRange NUM_PRIO_Q).findSome? fun i => (s.runq i).head?.map (Prod.mk i)

/-- Put the current thread of a CPU back into its queue if it is still running. -/
def requeue (cpu : ℕ) : Option Sched :=
  match s.current cpu with
  | none => some s
  | some tid => (s.threads tid).map fun x =>
    if x.canSched && !x.linked then s.link tid x x.getPrio else s

/-- Unlink the first thread of a queue and run it. -/
def take (cpu tid : ℕ) (prio : Fin NUM_PRIO_Q) (x : SchedThread) : Sched :=
  { threads := Function.update s.threads tid (some { x with linked := false })
    current := Function.update s.current cpu (some tid)
    runq := Function.update s.runq prio (s.runq prio).tail }

def switchTaskUnlocked (cpu : ℕ) : Option Sched := do
  let s ← s.requeue cpu
  match s.first with
  | none => some { s with current := Function.update s.current cpu none }
  | some (prio, tid) => (s.threads tid).map (s.take cpu tid prio)

/-- The current thread of a CPU calls `waitThread`. -/
def waitThread (cpu : ℕ) : Option Sched := do
  let tid ← s.current cpu
  let x ← s.threads tid
  some (s.setThread tid (if x.wakeCounter = 0 then { x with waiting := true }
    else { x with wakeCounter := x.wakeCounter - 1 }))

/-- The nice value of the current thread of a CPU; that of an idle thread is zero. -/
def currentNice (cpu : ℕ) : ℤ :=
  (((s.current cpu).bind s.threads).map fun x => x.niceVal.1).getD 0

/-- `signalThread`, called on a CPU; the alarm of the thread is not due. -/
def signalThread (cpu tid : ℕ) : Option (Bool × Sched) :=
  (s.threads tid).map fun x =>
    let woken := { x with waiting := false }
    (decide (x.niceVal.1 < s.currentNice cpu),
      if x.waiting then if x.linked then s.setThread tid woken else s.link tid woken x.getPrio
      else s.setThread tid { x with wakeCounter := x.wakeCounter + 1 })

/-- The loop of `onTick` over the threads whose events are due: as soon as one of them has a higher
priority than the current thread, the rest are not signalled. -/
def onTick (cpu : ℕ) : List ℕ → Bool → Sched → Option (Bool × Sched)
  | [], doResched, s => some (doResched, s)
  | tid :: tids, doResched, s =>
    (if doResched then some (true, s) else s.signalThread cpu tid).bind fun r =>
      onTick cpu tids r.1 r.2

/-- The nice value after `thnice`. -/
def niceAfter (niceVal : Nice) (incr : Int32) : Nice :=
  let newVal := (Int32.ofInt niceVal.1 + incr).toInt
  if h : newVal ≤ -8 then ⟨-7, by decide⟩
  else if h' : newVal ≥ 8 then ⟨7, by decide⟩
  else ⟨newVal, by omega⟩

def thnice (cpu : ℕ) (incr : Int32) : Option Sched := do
  let tid ← s.current cpu
  let x ← s.threads tid
  some (s.setThread tid { x with niceVal := niceAfter x.niceVal incr })

/-- `threadClone` links the new thread, which inherits the priority. -/
def threadClone (cpu tid : ℕ) : Option Sched := do
  let parent ← (s.current cpu).bind s.threads
  let x : SchedThread := ⟨false, false, false, 0, parent.niceVal, false⟩
  if s.threads tid = none then some (s.link tid x x.getPrio) else none

/-- `CreateKernelThread`; `waiting` is the flag `THREAD_WAITING` of the parameters. -/
def createKernelThread (tid : ℕ) (waiting : Bool) : Option Sched :=
  let x : SchedThread := ⟨waiting, false, false, 0, ⟨0, by decide⟩, false⟩
  if s.threads tid = none then some (if x.canSched then s.link tid x 7 else s.setThread tid x)
  else none

/-- The current thread of a CPU sets a flag of its own before it switches tasks. -/
def setFlags (cpu : ℕ) (terminated traced : Bool) : Option Sched := do
  let tid ← s.current cpu
  let x ← s.threads tid
  some (s.setThread tid
    { x with terminated := x.terminated || terminated, traced := x.traced || traced })

/-- A traced thread is marked as waiting, for `signalThread` to link it. -/
def untrace (tid : ℕ) : Option Sched :=
  (s.threads tid).map fun x =>
    if x.traced then s.setThread tid { x with traced := false, waiting := true } else s

end Sched

inductive SchedEvent where
  | wait (cpu : ℕ)
  | signal (cpu tid : ℕ)
  | switch (cpu : ℕ)
  | nice (cpu : ℕ) (incr : Int32)
  | clone (cpu tid : ℕ)
  | create (tid : ℕ) (waiting : Bool)
  | tick (cpu : ℕ) (tids : List ℕ)
  | exit (cpu : ℕ)
  | suspend (cpu : ℕ)
  | untrace (tid : ℕ)

def Sched.step (s : Sched) : SchedEvent → Option Sched
  | .wait cpu => s.waitThread cpu
  | .signal cpu tid => (s.signalThread cpu tid).map Prod.snd
  | .switch cpu => s.switchTaskUnlocked cpu
  | .nice cpu incr => s.thnice cpu incr
  | .clone cpu tid => s.threadClone cpu tid
  | .create tid waiting => s.createKernelThread tid waiting
  | .tick cpu tids => (s.onTick cpu tids false).map Prod.snd
  | .exit cpu => s.setFlags cpu true false
  | .suspend cpu => s.setFlags cpu false true
  | .untrace tid => s.untrace tid

/-- `initSched`: CPU 0 runs the first thread, and the other CPUs are idle. -/
def initSched : Sched where
  threads := Function.update (fun _ => none) 0 (some ⟨false, false, false, 0, ⟨0, by decide⟩, false⟩)
  current := Function.update (fun _ => none) 0 (some 0)
  runq _ := []

def schedSystem : System Sched SchedEvent where
  init s := s = initSched
  step s e s' := s.step e = some s'

/-! ## Linked and runnable threads -/

namespace Sched

variable {s t : Sched} {cpu tid p : ℕ} {x y : SchedThread} {prio : Fin NUM_PRIO_Q}

/-- The threads in the run queues. -/
def queued (s : Sched) : Multiset ℕ := ∑ i, (s.runq i : Multiset ℕ)

/-- The queues agree with the flags: a thread is linked at most once, in one queue, and exactly if
`runq.thread` is set; and a thread that may run is linked or current. -/
structure Linkage (s : Sched) : Prop where
  nodup : s.queued.Nodup
  linked : ∀ tid, tid ∈ s.queued ↔ ∃ x, s.threads tid = some x ∧ x.linked = true
  runnable : ∀ tid x, s.threads tid = some x → x.canSched = true →
    tid ∈ s.queued ∨ ∃ cpu, s.current cpu = some tid
  current : ∀ cpu tid, s.current cpu = some tid → s.threads tid ≠ none

theorem queued_update (l : List ℕ) : (s.runq prio : Multiset ℕ) +
    ∑ i, (Function.update s.runq prio l i : Multiset ℕ) = l + s.queued := by
  have hrest : ∑ i ∈ Finset.univ.erase prio, (Function.update s.runq prio l i : Multiset ℕ) =
      ∑ i ∈ Finset.univ.erase prio, (s.runq i : Multiset ℕ) :=
    Finset.sum_congr rfl fun i hi => by rw [Function.update_of_ne (Finset.ne_of_mem_erase hi)]
  rw [queued, ← Finset.add_sum_erase _ _ (Finset.mem_univ prio), hrest, Function.update_self,
    ← Finset.add_sum_erase _ (fun i => (s.runq i : Multiset ℕ)) (Finset.mem_univ prio)]
  exact add_left_comm ..

theorem queued_link : (s.link tid x prio).queued = tid ::ₘ s.queued := by
  refine add_left_cancel ((queued_update (s.runq prio ++ [tid])).trans ?_)
  rw [← Multiset.coe_add, add_assoc]
  rfl

theorem head_of_first (h : s.first = some (prio, tid)) : (s.runq prio).head? = some tid := by
  obtain ⟨i, -, hi⟩ := List.exists_of_findSome?_eq_some h
  obtain ⟨q, hq, he⟩ := Option.map_eq_some_iff.1 hi
  cases he
  exact hq

theorem queued_take (h : s.first = some (prio, tid)) :
    s.queued = tid ::ₘ (s.take cpu tid prio x).queued := by
  obtain ⟨rest, hrest⟩ := List.head?_eq_some_iff.1 (head_of_first h)
  have hsum : (s.runq prio : Multiset ℕ) + (s.take cpu tid prio x).queued =
      (s.runq prio).tail + s.queued := queued_update (s.runq prio).tail
  have hcons : (s.runq prio : Multiset ℕ) = tid ::ₘ ((s.runq prio).tail : Multiset ℕ) := by
    rw [hrest]
    rfl
  rw [hcons, Multiset.cons_add, ← Multiset.add_cons] at hsum
  exact (add_left_cancel hsum).symm

theorem queued_setThread : (s.setThread tid x).queued = s.queued := rfl

theorem threads_setThread_self : (s.setThread tid x).threads tid = some x := Function.update_self ..

theorem threads_setThread_ne (h : p ≠ tid) : (s.setThread tid x).threads p = s.threads p :=
  Function.update_of_ne h ..

theorem linked_mem (h : s.Linkage) (hx : s.threads tid = some x) :
    tid ∈ s.queued ↔ x.linked = true := by
  rw [h.linked tid]
  constructor
  · rintro ⟨y, hy, hl⟩
    rwa [Option.some.inj (hx.symm.trans hy)]
  · exact fun hl => ⟨x, hx, hl⟩

/-- A thread changes, but not whether it is linked. -/
theorem Linkage.setThread (h : s.Linkage) (hlinked : tid ∈ s.queued ↔ y.linked = true)
    (hrun : y.canSched = true → tid ∈ s.queued ∨ ∃ cpu, s.current cpu = some tid) :
    (s.setThread tid y).Linkage where
  nodup := h.nodup
  linked p := by
    rw [queued_setThread]
    by_cases hp : p = tid
    · subst hp
      rw [hlinked, threads_setThread_self]
      simp
    · rw [h.linked p, threads_setThread_ne hp]
  runnable p z hz hs := by
    by_cases hp : p = tid
    · subst hp
      obtain rfl := Option.some.inj (threads_setThread_self.symm.trans hz)
      exact hrun hs
    · rw [threads_setThread_ne hp] at hz
      exact h.runnable p z hz hs
  current c p hc := by
    by_cases hp : p = tid
    · subst hp
      rw [threads_setThread_self]
      simp
    · rw [threads_setThread_ne hp]
      exact h.current c p hc

theorem Linkage.modify (h : s.Linkage) (hx : s.threads tid = some x) (hl : y.linked = x.linked)
    (hrun : y.canSched = true → tid ∈ s.queued ∨ ∃ cpu, s.current cpu = some tid) :
    (s.setThread tid y).Linkage :=
  h.setThread (hl ▸ linked_mem h hx) hrun

/-- A thread that is not linked is linked into a queue. -/
theorem Linkage.link (h : s.Linkage) (hmem : tid ∉ s.queued) : (s.link tid x prio).Linkage where
  nodup := by
    rw [queued_link]
    exact Multiset.nodup_cons.2 ⟨hmem, h.nodup⟩
  linked p := by
    rw [queued_link, Multiset.mem_cons]
    by_cases hp : p = tid
    · subst hp
      exact iff_of_true (.inl rfl) ⟨_, threads_setThread_self, rfl⟩
    · show _ ↔ ∃ y, (s.setThread tid _).threads p = some y ∧ _
      rw [threads_setThread_ne hp, or_iff_right hp]
      exact h.linked p
  runnable p z hz hs := by
    rw [queued_link, Multiset.mem_cons]
    by_cases hp : p = tid
    · exact .inl (.inl hp)
    · have hz' : s.threads p = some z := (threads_setThread_ne hp).symm.trans hz
      exact (h.runnable p z hz' hs).imp .inr id
  current c p hc := by
    show (s.setThread tid _).threads p ≠ none
    by_cases hp : p = tid
    · subst hp
      rw [threads_setThread_self]
      simp
    · rw [threads_setThread_ne hp]
      exact h.current c p hc

/-- The current thread of the CPU is in a queue, if it may run. -/
def PutBack (s : Sched) (cpu : ℕ) : Prop :=
  ∀ tid x, s.current cpu = some tid → s.threads tid = some x → x.canSched = true → tid ∈ s.queued

theorem Linkage.requeue (h : s.Linkage) (hs : s.requeue cpu = some t) :
    t.Linkage ∧ t.current = s.current ∧ t.PutBack cpu := by
  unfold Sched.requeue at hs
  split at hs
  · next hidle =>
    cases hs
    exact ⟨h, rfl, fun tid x hc => absurd (hidle.symm.trans hc) (by simp)⟩
  · next tid hcur =>
    obtain ⟨x, hx, rfl⟩ := Option.map_eq_some_iff.1 hs
    split_ifs with hlink
    · obtain ⟨-, hnot⟩ := (Bool.and_eq_true_iff ..).1 hlink
      have hmem : tid ∉ s.queued := fun hm => by
        rw [(linked_mem h hx).1 hm] at hnot
        cases hnot
      refine ⟨h.link hmem, rfl, fun q y hc _ _ => ?_⟩
      rw [queued_link, ← Option.some.inj (hcur.symm.trans hc)]
      exact Multiset.mem_cons_self _ _
    · refine ⟨h, rfl, fun q y hc hy hs => ?_⟩
      obtain rfl := Option.some.inj (hcur.symm.trans hc)
      obtain rfl := Option.some.inj (hx.symm.trans hy)
      rw [hs, Bool.true_and, Bool.not_eq_true, Bool.not_eq_false'] at hlink
      exact (linked_mem h hx).2 hlink

theorem Linkage.take (h : s.Linkage) (hback : s.PutBack cpu) (hfirst : s.first = some (prio, tid))
    (hx : s.threads tid = some x) : (s.take cpu tid prio x).Linkage := by
  have hqueued : s.queued = tid ::ₘ (s.take cpu tid prio x).queued := queued_take hfirst
  have hnodup := h.nodup
  rw [hqueued, Multiset.nodup_cons] at hnodup
  have hself : (s.take cpu tid prio x).threads tid = some { x with linked := false } :=
    Function.update_self ..
  have hne : ∀ {p}, p ≠ tid → (s.take cpu tid prio x).threads p = s.threads p :=
    fun hp => Function.update_of_ne hp ..
  have hcur : (s.take cpu tid prio x).current cpu = some tid := Function.update_self ..
  have hcurne : ∀ {c}, c ≠ cpu → (s.take cpu tid prio x).current c = s.current c :=
    fun hc => Function.update_of_ne hc ..
  refine ⟨hnodup.2, fun p => ?_, fun p z hz hs => ?_, fun c p hc => ?_⟩
  · by_cases hp : p = tid
    · subst hp
      rw [hself]
      exact iff_of_false hnodup.1 (by simp)
    · have hmem := h.linked p
      rw [hqueued, Multiset.mem_cons, or_iff_right hp] at hmem
      rw [hne hp, hmem]
  · by_cases hp : p = tid
    · exact .inr ⟨cpu, hp ▸ hcur⟩
    rw [hne hp] at hz
    have hstay : p ∈ s.queued → p ∈ (s.take cpu tid prio x).queued := fun hm => by
      rw [hqueued, Multiset.mem_cons] at hm
      exact hm.resolve_left hp
    obtain hm | ⟨c, hc⟩ := h.runnable p z hz hs
    · exact .inl (hstay hm)
    · by_cases hcpu : c = cpu
      · exact .inl (hstay (hback p z (hcpu ▸ hc) hz hs))
      · exact .inr ⟨c, (hcurne hcpu).trans hc⟩
  · by_cases hp : p = tid
    · subst hp
      rw [hself]
      simp
    · rw [hne hp]
      by_cases hcpu : c = cpu
      · subst hcpu
        exact absurd (Option.some.inj (hc.symm.trans hcur)) hp
      · exact h.current c p ((hcurne hcpu).symm.trans hc)

/-- With no thread linked, the CPU goes idle. -/
theorem Linkage.goIdle (h : s.Linkage) (hback : s.PutBack cpu) :
    ({ s with current := Function.update s.current cpu none } : Sched).Linkage := by
  have hcurne : ∀ {c}, c ≠ cpu → Function.update s.current cpu none c = s.current c :=
    fun hc => Function.update_of_ne hc ..
  refine ⟨h.nodup, h.linked, fun p z hz hs => ?_, fun c p hc => ?_⟩
  · obtain hm | ⟨c, hc⟩ := h.runnable p z hz hs
    · exact .inl hm
    · by_cases hcpu : c = cpu
      · exact .inl (hback p z (hcpu ▸ hc) hz hs)
      · exact .inr ⟨c, (hcurne hcpu).trans hc⟩
  · by_cases hcpu : c = cpu
    · subst hcpu
      exact absurd ((Function.update_self ..).symm.trans hc) nofun
    · exact h.current c p ((hcurne hcpu).symm.trans hc)

theorem Linkage.switchTaskUnlocked (h : s.Linkage) (hs : s.switchTaskUnlocked cpu = some t) :
    t.Linkage := by
  obtain ⟨s₁, hs₁, hs⟩ := Option.bind_eq_some_iff.1 hs
  obtain ⟨hlink, -, hback⟩ := h.requeue hs₁
  split at hs
  · cases hs
    exact hlink.goIdle hback
  · next hfirst =>
    obtain ⟨x, hx, rfl⟩ := Option.map_eq_some_iff.1 hs
    exact hlink.take hback hfirst hx

theorem not_canSched_of_waiting (h : x.waiting = true) : x.canSched ≠ true := by
  simp [SchedThread.canSched, h]

theorem Linkage.waitThread (h : s.Linkage) (hs : s.waitThread cpu = some t) : t.Linkage := by
  obtain ⟨tid, hcur, hs⟩ := Option.bind_eq_some_iff.1 hs
  obtain ⟨x, hx, hs⟩ := Option.bind_eq_some_iff.1 hs
  cases hs
  refine h.modify hx ?_ fun _ => .inr ⟨cpu, hcur⟩
  split_ifs <;> rfl

theorem Linkage.signalThread {r : Bool × Sched} (h : s.Linkage)
    (hs : s.signalThread cpu tid = some r) : r.2.Linkage := by
  obtain ⟨x, hx, rfl⟩ := Option.map_eq_some_iff.1 hs
  dsimp only
  split_ifs with hwaiting hlinked
  · exact h.modify hx rfl fun _ => .inl ((linked_mem h hx).2 hlinked)
  · exact h.link fun hm => hlinked ((linked_mem h hx).1 hm)
  · exact h.modify hx rfl fun hs => h.runnable tid x hx hs

theorem Linkage.onTick {tids : List ℕ} {b : Bool} {r : Bool × Sched} (h : s.Linkage)
    (hs : Sched.onTick cpu tids b s = some r) : r.2.Linkage := by
  induction tids generalizing s b with
  | nil =>
    cases hs
    exact h
  | cons tid tids ih =>
    rw [Sched.onTick] at hs
    obtain ⟨q, hq, hs⟩ := Option.bind_eq_some_iff.1 hs
    refine ih ?_ hs
    split_ifs at hq
    · cases hq
      exact h
    · exact h.signalThread hq

theorem Linkage.thnice {incr : Int32} (h : s.Linkage) (hs : s.thnice cpu incr = some t) :
    t.Linkage := by
  obtain ⟨tid, hcur, hs⟩ := Option.bind_eq_some_iff.1 hs
  obtain ⟨x, hx, hs⟩ := Option.bind_eq_some_iff.1 hs
  cases hs
  exact h.modify hx rfl fun _ => .inr ⟨cpu, hcur⟩

theorem Linkage.setFlags {terminated traced : Bool} (h : s.Linkage)
    (hs : s.setFlags cpu terminated traced = some t) : t.Linkage := by
  obtain ⟨tid, hcur, hs⟩ := Option.bind_eq_some_iff.1 hs
  obtain ⟨x, hx, hs⟩ := Option.bind_eq_some_iff.1 hs
  cases hs
  exact h.modify hx rfl fun _ => .inr ⟨cpu, hcur⟩

theorem Linkage.untrace (h : s.Linkage) (hs : s.untrace tid = some t) : t.Linkage := by
  obtain ⟨x, hx, rfl⟩ := Option.map_eq_some_iff.1 hs
  split_ifs
  · exact h.modify hx rfl fun hs => absurd hs (not_canSched_of_waiting rfl)
  · exact h

theorem Linkage.notMem_of_none (h : s.Linkage) (hnew : s.threads tid = none) : tid ∉ s.queued :=
  fun hm => by
    obtain ⟨x, hx, -⟩ := (h.linked tid).1 hm
    rw [hnew] at hx
    cases hx

theorem Linkage.threadClone (h : s.Linkage) (hs : s.threadClone cpu tid = some t) : t.Linkage := by
  obtain ⟨parent, -, hs⟩ := Option.bind_eq_some_iff.1 hs
  obtain ⟨hnew, hs⟩ := Option.ite_none_right_eq_some.1 hs
  cases hs
  exact h.link (h.notMem_of_none hnew)

theorem Linkage.createKernelThread {waiting : Bool} (h : s.Linkage)
    (hs : s.createKernelThread tid waiting = some t) : t.Linkage := by
  obtain ⟨hnew, hs⟩ := Option.ite_none_right_eq_some.1 hs
  cases hs
  have hmem := h.notMem_of_none hnew
  split_ifs with hrun
  · exact h.link hmem
  · exact h.setThread (iff_of_false hmem (by simp)) fun hs => absurd hs hrun

theorem Linkage.step {e : SchedEvent} (h : s.Linkage) (hs : s.step e = some t) : t.Linkage := by
  cases e with
  | wait cpu => exact h.waitThread hs
  | signal cpu tid =>
    obtain ⟨r, hr, rfl⟩ := Option.map_eq_some_iff.1 hs
    exact h.signalThread hr
  | switch cpu => exact h.switchTaskUnlocked hs
  | nice cpu incr => exact h.thnice hs
  | clone cpu tid => exact h.threadClone hs
  | create tid waiting => exact h.createKernelThread hs
  | tick cpu tids =>
    obtain ⟨r, hr, rfl⟩ := Option.map_eq_some_iff.1 hs
    exact h.onTick hr
  | exit cpu => exact h.setFlags hs
  | suspend cpu => exact h.setFlags hs
  | untrace tid => exact h.untrace hs

theorem initSched_linkage : initSched.Linkage := by
  have hqueued : initSched.queued = 0 := Finset.sum_const_zero
  have hself : initSched.threads 0 = some ⟨false, false, false, 0, ⟨0, by decide⟩, false⟩ := rfl
  have hne : ∀ {p}, p ≠ 0 → initSched.threads p = none :=
    fun hp => by simp [initSched, hp]
  refine ⟨hqueued ▸ Multiset.nodup_zero, fun p => ?_, fun p x hx _ => .inr ⟨0, ?_⟩,
    fun c p hc => ?_⟩
  · rw [hqueued]
    refine iff_of_false (Multiset.notMem_zero p) ?_
    rintro ⟨x, hx, hl⟩
    by_cases hp : p = 0
    · subst hp
      rw [← Option.some.inj (hself.symm.trans hx)] at hl
      cases hl
    · rw [hne hp] at hx
      cases hx
  · by_cases hp : p = 0
    · rw [hp]
      rfl
    · rw [hne hp] at hx
      cases hx
  · by_cases hcpu : c = 0
    · subst hcpu
      rw [← Option.some.inj hc, hself]
      simp
    · have hidle : initSched.current c = none := by simp [initSched, hcpu]
      rw [hidle] at hc
      cases hc

/-! ## Current threads -/

def Exclusive (s : Sched) : Prop :=
  ∀ c d tid, s.current c = some tid → s.current d = some tid → c = d

/-- If a CPU switches tasks, the thread that it takes is not current on another CPU. -/
def TakesFree (s : Sched) (e : SchedEvent) : Prop :=
  ∀ cpu t prio tid, e = .switch cpu → s.requeue cpu = some t → t.first = some (prio, tid) →
    ∀ c, c ≠ cpu → s.current c ≠ some tid

theorem Exclusive.congr (h : s.Exclusive) (ht : t.current = s.current) : t.Exclusive :=
  fun c d tid hc hd => h c d tid (ht ▸ hc) (ht ▸ hd)

/-- A CPU takes a thread that is not current elsewhere. -/
theorem Exclusive.run {next : Option ℕ} (h : s.Exclusive)
    (hcur : t.current = Function.update s.current cpu next)
    (hfree : ∀ p, next = some p → ∀ c, c ≠ cpu → s.current c ≠ some p) : t.Exclusive := by
  intro c d p hcp hdp
  rw [hcur] at hcp hdp
  by_cases hcc : c = cpu <;> by_cases hdc : d = cpu
  · rw [hcc, hdc]
  · subst hcc
    rw [Function.update_self] at hcp
    rw [Function.update_of_ne hdc] at hdp
    exact absurd hdp (hfree p hcp d hdc)
  · subst hdc
    rw [Function.update_self] at hdp
    rw [Function.update_of_ne hcc] at hcp
    exact absurd hcp (hfree p hdp c hcc)
  · rw [Function.update_of_ne hcc] at hcp
    rw [Function.update_of_ne hdc] at hdp
    exact h c d p hcp hdp

/-- What a switch does: the current thread may be put back, and then the first thread is taken, if
there is one. -/
theorem switch_cases (hs : s.switchTaskUnlocked cpu = some t) : ∃ u, s.requeue cpu = some u ∧
    (u.first = none ∧ t = { u with current := Function.update u.current cpu none } ∨
      ∃ prio tid x, u.first = some (prio, tid) ∧ u.threads tid = some x ∧
        t = u.take cpu tid prio x) := by
  obtain ⟨u, hu, hs⟩ := Option.bind_eq_some_iff.1 hs
  refine ⟨u, hu, ?_⟩
  split at hs
  · next hfirst =>
    cases hs
    exact .inl ⟨hfirst, rfl⟩
  · next hfirst =>
    obtain ⟨x, hx, rfl⟩ := Option.map_eq_some_iff.1 hs
    exact .inr ⟨_, _, x, hfirst, hx, rfl⟩

theorem requeue_current (hs : s.requeue cpu = some t) : t.current = s.current ∧
    ∀ p, p ∈ t.queued → p ∈ s.queued ∨ s.current cpu = some p := by
  unfold requeue at hs
  split at hs
  · cases hs
    exact ⟨rfl, fun p hp => .inl hp⟩
  · next tid hcur =>
    obtain ⟨x, -, rfl⟩ := Option.map_eq_some_iff.1 hs
    split_ifs
    · refine ⟨rfl, fun p hp => ?_⟩
      rw [queued_link, Multiset.mem_cons] at hp
      exact hp.symm.imp_right fun he : p = tid => he ▸ hcur
    · exact ⟨rfl, fun p hp => .inl hp⟩

theorem onTick_current {tids : List ℕ} {b : Bool} {r : Bool × Sched}
    (hs : Sched.onTick cpu tids b s = some r) : r.2.current = s.current := by
  induction tids generalizing s b with
  | nil =>
    cases hs
    rfl
  | cons tid tids ih =>
    obtain ⟨q, hq, hs⟩ := Option.bind_eq_some_iff.1 hs
    refine (ih hs).trans ?_
    split_ifs at hq
    · cases hq
      rfl
    · obtain ⟨x, -, rfl⟩ := Option.map_eq_some_iff.1 hq
      dsimp only
      split_ifs <;> rfl

/-- Only a switch changes what is current. -/
theorem current_step {e : SchedEvent} (hs : s.step e = some t) (hne : ∀ cpu, e ≠ .switch cpu) :
    t.current = s.current := by
  cases e with
  | wait cpu | nice cpu incr | exit cpu | suspend cpu =>
    obtain ⟨tid, -, hs⟩ := Option.bind_eq_some_iff.1 hs
    obtain ⟨x, -, hs⟩ := Option.bind_eq_some_iff.1 hs
    cases hs
    rfl
  | signal cpu tid =>
    obtain ⟨r, hr, rfl⟩ := Option.map_eq_some_iff.1 hs
    obtain ⟨x, -, rfl⟩ := Option.map_eq_some_iff.1 hr
    dsimp only
    split_ifs <;> rfl
  | switch cpu => exact absurd rfl (hne cpu)
  | clone cpu tid =>
    obtain ⟨parent, -, hs⟩ := Option.bind_eq_some_iff.1 hs
    obtain ⟨-, hs⟩ := Option.ite_none_right_eq_some.1 hs
    cases hs
    rfl
  | create tid waiting =>
    obtain ⟨-, hs⟩ := Option.ite_none_right_eq_some.1 hs
    cases hs
    split_ifs <;> rfl
  | tick cpu tids =>
    obtain ⟨r, hr, rfl⟩ := Option.map_eq_some_iff.1 hs
    exact onTick_current hr
  | untrace tid =>
    obtain ⟨x, -, rfl⟩ := Option.map_eq_some_iff.1 hs
    split_ifs <;> rfl

theorem Exclusive.step {e : SchedEvent} (h : s.Exclusive) (hfree : s.TakesFree e)
    (hs : s.step e = some t) : t.Exclusive := by
  by_cases he : ∃ cpu, e = .switch cpu
  · obtain ⟨cpu, rfl⟩ := he
    obtain ⟨u, hu, ⟨-, rfl⟩ | ⟨prio, tid, x, hfirst, -, rfl⟩⟩ := switch_cases hs
    · have hcur : Function.update u.current cpu none = Function.update s.current cpu none := by
        rw [(requeue_current hu).1]
      exact h.run hcur fun p hp => by cases hp
    · have hcur : (u.take cpu tid prio x).current = Function.update s.current cpu (some tid) := by
        rw [take, (requeue_current hu).1]
      exact h.run hcur fun p hp => Option.some.inj hp ▸ hfree cpu u prio tid rfl hu hfirst
  · exact h.congr (current_step hs fun cpu hc => he ⟨cpu, hc⟩)

end Sched

/-! ## Main results -/

/-- What holds between steps: no thread is current on two CPUs, no thread is linked twice, and a
thread that may run is current or linked. -/
structure Sched.Ok (s : Sched) : Prop where
  exclusive : ∀ c d tid, s.current c = some tid → s.current d = some tid → c = d
  once : ∀ tid, ∑ i, (s.runq i).count tid ≤ 1
  runnable : ∀ tid x, s.threads tid = some x → x.canSched = true →
    (∃ cpu, s.current cpu = some tid) ∨ ∃ i, tid ∈ s.runq i

namespace Sched

variable {s t : Sched}

theorem Linkage.ok (h : s.Linkage) (hex : s.Exclusive) : s.Ok where
  exclusive := hex
  once tid := by
    have hone := Multiset.nodup_iff_count_le_one.1 h.nodup tid
    rw [queued, Multiset.count_sum'] at hone
    simpa only [Multiset.coe_count] using hone
  runnable tid x hx hs := by
    refine (h.runnable tid x hx hs).symm.imp_right fun hm => ?_
    obtain ⟨i, -, hi⟩ := Multiset.mem_sum.1 hm
    exact ⟨i, Multiset.mem_coe.1 hi⟩

theorem initSched_exclusive : initSched.Exclusive := by
  have hzero : ∀ {c p}, initSched.current c = some p → c = 0 := fun {c p} hc => by
    by_contra hne
    simp [initSched, hne] at hc
  exact fun c d _ hc hd => (hzero hc).trans (hzero hd).symm

end Sched

/-- The run queues are right in every run. -/
theorem sched_linkage {s : Sched} (h : schedSystem.Reachable s) : s.Linkage :=
  h.invariant (fun _ hs => hs ▸ Sched.initSched_linkage) fun _ _ _ hs _ ht => hs.step ht

/-- The threads that a step may signal. -/
def SchedEvent.signals : SchedEvent → List ℕ
  | .signal _ tid => [tid]
  | .tick _ tids => tids
  | _ => []

namespace Sched

variable {s t : Sched} {cpu tid p : ℕ} {x : SchedThread}

/-- Of these threads, none that is waiting is still current. -/
def Asleep (s : Sched) (tids : List ℕ) : Prop :=
  ∀ tid ∈ tids, ∀ x, s.threads tid = some x → x.waiting = true → ∀ c, s.current c ≠ some tid

/-- No thread is signalled between its `waitThread` and its next switch. -/
def Prompt (s : Sched) (e : SchedEvent) : Prop := s.Asleep e.signals

/-- No thread is both linked and current. -/
def Apart (s : Sched) : Prop := ∀ tid ∈ s.queued, ∀ c, s.current c ≠ some tid

theorem Apart.link {prio : Fin NUM_PRIO_Q} (h : s.Apart) (hfree : ∀ c, s.current c ≠ some tid) :
    (s.link tid x prio).Apart := fun p hp => by
  rw [queued_link, Multiset.mem_cons] at hp
  obtain rfl | hp := hp
  · exact hfree
  · exact h p hp

theorem Apart.signalThread {r : Bool × Sched} (h : s.Apart) (hasleep : s.Asleep [tid])
    (hs : s.signalThread cpu tid = some r) : r.2.Apart := by
  obtain ⟨x, hx, rfl⟩ := Option.map_eq_some_iff.1 hs
  dsimp only
  split_ifs with hwaiting
  · exact h
  · exact h.link (hasleep tid List.mem_cons_self x hx hwaiting)
  · exact h

/-- A signal sets no thread waiting. -/
theorem Asleep.signalThread {tids : List ℕ} {r : Bool × Sched} (h : s.Asleep tids)
    (hs : s.signalThread cpu tid = some r) : r.2.Asleep tids := by
  obtain ⟨x, hx, rfl⟩ := Option.map_eq_some_iff.1 hs
  intro p hp y hy hwaiting
  have hsame : ∃ z, s.threads p = some z ∧ z.waiting = true := by
    dsimp only at hy
    by_cases hpt : p = tid
    · subst hpt
      refine ⟨x, hx, ?_⟩
      by_contra hno
      rw [if_neg hno, threads_setThread_self] at hy
      cases hy
      exact hno hwaiting
    · refine ⟨y, ?_, hwaiting⟩
      split_ifs at hy <;> exact (threads_setThread_ne hpt).symm.trans hy
  obtain ⟨z, hz, hw⟩ := hsame
  dsimp only
  split_ifs <;> exact h p hp z hz hw

theorem Apart.onTick {tids : List ℕ} {b : Bool} {r : Bool × Sched} (h : s.Apart)
    (hasleep : s.Asleep tids) (hs : Sched.onTick cpu tids b s = some r) : r.2.Apart := by
  induction tids generalizing s b with
  | nil =>
    cases hs
    exact h
  | cons tid tids ih =>
    obtain ⟨q, hq, hs⟩ := Option.bind_eq_some_iff.1 hs
    have hhead : s.Asleep [tid] := fun p hp => hasleep p (by simp_all)
    have htail : s.Asleep tids := fun p hp => hasleep p (List.mem_cons_of_mem tid hp)
    split_ifs at hq
    · cases hq
      exact ih h htail hs
    · exact ih (h.signalThread hhead hq) (htail.signalThread hq) hs

theorem Apart.takesFree {e : SchedEvent} (h : s.Apart) (hex : s.Exclusive) : s.TakesFree e := by
  intro cpu t prio tid _ ht hfirst c hc hcur
  have hmem : tid ∈ t.queued :=
    Multiset.mem_sum.2 ⟨prio, Finset.mem_univ _, List.mem_of_mem_head? (head_of_first hfirst)⟩
  obtain hm | hm := (requeue_current ht).2 tid hmem
  · exact h tid hm c hcur
  · exact hc (hex c cpu tid hcur hm)

theorem Apart.switch (h : s.Apart) (hlink : s.Linkage) (hex : s.Exclusive)
    (hs : s.switchTaskUnlocked cpu = some t) : t.Apart := by
  obtain ⟨u, hu, hcases⟩ := switch_cases hs
  obtain ⟨hcur, hmem⟩ := requeue_current hu
  -- what is in a queue before the thread is taken is not current on another CPU
  have hother : ∀ p ∈ u.queued, ∀ c, c ≠ cpu → s.current c ≠ some p := fun p hp c hc hcp => by
    obtain hp | hp := hmem p hp
    · exact h p hp c hcp
    · exact hc (hex c cpu p hcp hp)
  obtain ⟨-, rfl⟩ | ⟨prio, tid, x, hfirst, -, rfl⟩ := hcases
  · intro p hp c
    show Function.update u.current cpu none c ≠ some p
    by_cases hc : c = cpu
    · subst hc
      rw [Function.update_self]
      nofun
    · rw [Function.update_of_ne hc, hcur]
      exact hother p hp c hc
  · have hqueued : u.queued = tid ::ₘ (u.take cpu tid prio x).queued := queued_take hfirst
    have hnodup := (hlink.requeue hu).1.nodup
    rw [hqueued, Multiset.nodup_cons] at hnodup
    intro p hp c
    show Function.update u.current cpu (some tid) c ≠ some p
    by_cases hc : c = cpu
    · subst hc
      rw [Function.update_self]
      exact fun he => hnodup.1 (Option.some.inj he ▸ hp)
    · rw [Function.update_of_ne hc, hcur]
      exact hother p (hqueued ▸ Multiset.mem_cons_of_mem hp) c hc

theorem Apart.step {e : SchedEvent} (h : s.Apart) (hlink : s.Linkage) (hex : s.Exclusive)
    (hprompt : s.Prompt e) (hs : s.step e = some t) : t.Apart := by
  have hfresh : ∀ {tid}, s.threads tid = none → ∀ c, s.current c ≠ some tid :=
    fun hnew c hc => hlink.current c _ hc hnew
  cases e with
  | wait cpu | nice cpu incr | exit cpu | suspend cpu =>
    obtain ⟨tid, -, hs⟩ := Option.bind_eq_some_iff.1 hs
    obtain ⟨x, -, hs⟩ := Option.bind_eq_some_iff.1 hs
    cases hs
    exact h
  | signal cpu tid =>
    obtain ⟨r, hr, rfl⟩ := Option.map_eq_some_iff.1 hs
    exact h.signalThread hprompt hr
  | switch cpu => exact h.switch hlink hex hs
  | clone cpu tid =>
    obtain ⟨parent, -, hs⟩ := Option.bind_eq_some_iff.1 hs
    obtain ⟨hnew, hs⟩ := Option.ite_none_right_eq_some.1 hs
    cases hs
    exact h.link (hfresh hnew)
  | create tid waiting =>
    obtain ⟨hnew, hs⟩ := Option.ite_none_right_eq_some.1 hs
    cases hs
    split_ifs
    · exact h.link (hfresh hnew)
    · exact h
  | tick cpu tids =>
    obtain ⟨r, hr, rfl⟩ := Option.map_eq_some_iff.1 hs
    exact h.onTick hprompt hr
  | untrace tid =>
    obtain ⟨x, -, rfl⟩ := Option.map_eq_some_iff.1 hs
    split_ifs <;> exact h

theorem initSched_apart : initSched.Apart := fun tid hm => by
  have hqueued : initSched.queued = 0 := Finset.sum_const_zero
  rw [hqueued] at hm
  exact absurd hm (Multiset.notMem_zero tid)

end Sched

/-- If threads give up their CPUs before they are signalled, no CPU takes a thread that is current
elsewhere. -/
theorem sched_ok_of_prompt {s : Sched} (h : schedSystem.ReachesBy Sched.Prompt s) : s.Ok := by
  suffices hinv : s.Linkage ∧ s.Exclusive ∧ s.Apart from hinv.1.ok hinv.2.1
  refine h.invariant (I := fun s => s.Linkage ∧ s.Exclusive ∧ s.Apart) (fun _ hs => ?_)
    fun s e t hs hprompt ht => ?_
  · exact hs ▸ ⟨Sched.initSched_linkage, Sched.initSched_exclusive, Sched.initSched_apart⟩
  · obtain ⟨hlink, hex, hapart⟩ := hs
    exact ⟨hlink.step ht, hex.step (hapart.takesFree hex) ht, hapart.step hlink hex hprompt ht⟩

end Glidix.Thread
