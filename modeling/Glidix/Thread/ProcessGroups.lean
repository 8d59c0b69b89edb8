import Mathlib.Data.List.Nodup
import Mathlib.Tactic.SplitIfs
import Glidix.Lib.Runs
import Glidix.Lib.Tally

/-!
# Process groups and sessions

The ids of the live processes, and the calls that change them.  Each call runs under the scheduler lock
and is one step.  A call looks for a process by going round the threads of the system, which begin with
the one that makes the call; it is given the processes that the other threads belong to.  A group keeps
to one session if nobody makes a session out of a group that others are in (`grouped_of_run`).
-/

namespace Glidix.Thread.ProcessGroups

def ESRCH : Int32 := 76
def EPERM : Int32 := 68

/-- The ids of a process. -/
structure Creds where
  pid : Int32
  ppid : Int32
  sid : Int32
  pgid : Int32
  deriving DecidableEq

/-- The live processes, and the number that the next process or thread is given. -/
structure Processes where
  creds : List Creds
  nextPid : Int32
  deriving DecidableEq

/-- What a call returns: a result, or -1 with this `ERRNO`. -/
inductive CallResult where
  | returns (result : Int32)
  | fails (errno : Int32)
  deriving DecidableEq

/-- The steps of the process at position `me`; `ring` are the processes of the other threads, in their
order. -/
inductive ProcessOp where
  | fork (me : ℕ)
  | newThread (me : ℕ)
  | setsid (me : ℕ)
  | setpgid (me : ℕ) (ring : List ℕ) (pid pgid : Int32)
  | exit (me : ℕ)
  deriving DecidableEq

namespace Processes

variable (s : Processes)

/-- `credsDup`, for a child of the process. -/
def fork (me : ℕ) : Option (CallResult × Processes) :=
  s.creds[me]?.map fun old => (.returns s.nextPid,
    { creds := s.creds ++ [{ old with pid := s.nextPid, ppid := old.pid }]
      nextPid := s.nextPid + 1 })

/-- A thread takes its `thid` from the numbers of the processes. -/
def newThread (me : ℕ) : Option (CallResult × Processes) :=
  s.creds[me]?.map fun _ => (.returns s.nextPid, { s with nextPid := s.nextPid + 1 })

def setsid (me : ℕ) : Option (CallResult × Processes) :=
  s.creds[me]?.map fun c =>
    if c.pid = c.pgid then (.fails EPERM, s)
    else (.returns c.pid, { s with creds := s.creds.set me { c with sid := c.pid, pgid := c.pid } })

/-- The first thread, from the current one on, whose process has a property. -/
def scan (me : ℕ) (ring : List ℕ) (p : Creds → Bool) : Option (ℕ × Creds) :=
  (me :: ring).findSome? fun i => (s.creds[i]?.filter p).map fun c => (i, c)

/-- `sys_setpgid` from where the target is known. -/
def setTarget (me : ℕ) (ring : List ℕ) (pgid : Int32) (i : ℕ) (target : Creds) :
    CallResult × Processes :=
  if target.sid = target.pid then (.fails EPERM, s)
  else
    let pgid := if pgid = 0 then target.pid else pgid
    let joined := (.returns 0, { s with creds := s.creds.set i { target with pgid } })
    if pgid ≠ target.pid then
      match s.scan me ring fun c => c.pgid = pgid with
      | none => (.fails EPERM, s)
      | some (_, ex) => if ex.sid ≠ target.sid then (.fails EPERM, s) else joined
    else joined

/-- Every process has a thread. -/
def Covers (me : ℕ) (ring : List ℕ) : Prop := ∀ i < s.creds.length, i ∈ me :: ring

instance (me : ℕ) (ring : List ℕ) : Decidable (s.Covers me ring) :=
  inferInstanceAs (Decidable (∀ i < _, _))

def setpgid (me : ℕ) (ring : List ℕ) (pid pgid : Int32) : Option (CallResult × Processes) :=
  match s.creds[me]? with
  | none => none
  | some c =>
    if s.Covers me ring then
      match if pid = 0 then some (me, c) else s.scan me ring fun c => c.pid = pid with
      | none => some (.fails ESRCH, s)
      | some (i, target) =>
        if target.ppid ≠ c.pid ∧ i ≠ me then some (.fails ESRCH, s)
        else some (s.setTarget me ring pgid i target)
    else none

/-- The process is gone, and its children belong to process 1. -/
def exit (me : ℕ) : Option (CallResult × Processes) :=
  s.creds[me]?.map fun c => (.returns 0,
    { s with creds := (s.creds.eraseIdx me).map fun d => if d.ppid = c.pid then { d with ppid := 1 } else d })

def step : ProcessOp → Option (CallResult × Processes)
  | .fork me => s.fork me
  | .newThread me => s.newThread me
  | .setsid me => s.setsid me
  | .setpgid me ring pid pgid => s.setpgid me ring pid pgid
  | .exit me => s.exit me

end Processes

/-- `init` has made itself the leader of a session. -/
def processes : System Processes ProcessOp where
  init s := s.creds = [⟨1, 1, 1, 1⟩]
  step s op t := ∃ r, s.step op = some (r, t)

theorem processes_step {s t : Processes} {op : ProcessOp} (h : (s.step op).map Prod.snd = some t) :
    processes.step s op t := by
  obtain ⟨⟨r, u⟩, hr, rfl⟩ := Option.map_eq_some_iff.1 h
  exact ⟨r, hr⟩

/-! ## Groups and sessions -/

namespace Processes

variable {s t : Processes} {r : CallResult} {me i : ℕ} {c c' : Creds}

/-- All processes of a group are in one session, and the leader of a session leads its group. -/
structure Grouped (s : Processes) : Prop where
  session : ∀ c ∈ s.creds, ∀ d ∈ s.creds, c.pgid = d.pgid → c.sid = d.sid
  leader : ∀ c ∈ s.creds, c.sid = c.pid → c.pgid = c.pid

/-- The processes have different numbers, and a group is in the session of the process it is named
after, in it or not. -/
structure Inv (s : Processes) : Prop extends Grouped s where
  named : ∀ c ∈ s.creds, ∀ d ∈ s.creds, d.pgid = c.pid → d.sid = c.sid
  pids : (s.creds.map Creds.pid).Nodup

/-- What a step must do for the groups to keep to their sessions: a child gets a number that is not in
use, and a process makes a session of its own only if no process is in the group with its number. -/
def Apart (s : Processes) : ProcessOp → Prop
  | .fork _ => ∀ c ∈ s.creds, c.pid ≠ s.nextPid ∧ c.pgid ≠ s.nextPid ∧ c.sid ≠ s.nextPid
  | .setsid me => ∀ c ∈ s.creds[me]?, c.pid ≠ c.pgid → ∀ d ∈ s.creds, d.pgid ≠ c.pid
  | _ => True

instance (s : Processes) : DecidablePred s.Apart
  | .fork _ => inferInstanceAs (Decidable (∀ c ∈ s.creds, _))
  | .setsid me => inferInstanceAs (Decidable (∀ c ∈ s.creds[me]?, _))
  | .newThread _ | .setpgid .. | .exit _ => inferInstanceAs (Decidable True)

theorem mem_set_cases {l : List Creds} {d : Creds} (h : d ∈ l.set i c) :
    d = c ∨ ∃ j, j ≠ i ∧ l[j]? = some d := by
  obtain ⟨j, hj⟩ := List.mem_iff_getElem?.1 h
  obtain ⟨-, rfl⟩ | ⟨hne, hold⟩ := getElem?_set_cases hj
  · exact .inl rfl
  · exact .inr ⟨j, hne, hold⟩

/-- A process gets new ids, but keeps its number. -/
theorem Inv.set (h : s.Inv) (hi : s.creds[i]? = some c) (hpid : c'.pid = c.pid)
    (hleader : c'.sid = c'.pid → c'.pgid = c'.pid)
    (hsession : ∀ j d, j ≠ i → s.creds[j]? = some d → d.pgid = c'.pgid → d.sid = c'.sid)
    (hnamed : ∀ j d, j ≠ i → s.creds[j]? = some d → d.pgid = c'.pid → d.sid = c'.sid)
    (hnamer : ∀ j d, j ≠ i → s.creds[j]? = some d → c'.pgid = d.pid → c'.sid = d.sid) :
    ({ s with creds := s.creds.set i c' } : Processes).Inv := by
  refine ⟨⟨fun a ha b hb he => ?_, fun a ha he => ?_⟩, fun a ha b hb he => ?_, ?_⟩
  · obtain rfl | ⟨j, hj, hold⟩ := mem_set_cases ha
    · obtain rfl | ⟨k, hk, hold'⟩ := mem_set_cases hb
      · rfl
      · exact (hsession k b hk hold' he.symm).symm
    · obtain rfl | ⟨k, hk, hold'⟩ := mem_set_cases hb
      · exact hsession j a hj hold he
      · exact h.session a (List.mem_of_getElem? hold) b (List.mem_of_getElem? hold') he
  · obtain rfl | ⟨j, hj, hold⟩ := mem_set_cases ha
    · exact hleader he
    · exact h.leader a (List.mem_of_getElem? hold) he
  · obtain rfl | ⟨j, hj, hold⟩ := mem_set_cases ha
    · obtain rfl | ⟨k, hk, hold'⟩ := mem_set_cases hb
      · rfl
      · exact hnamed k b hk hold' he
    · obtain rfl | ⟨k, hk, hold'⟩ := mem_set_cases hb
      · exact hnamer j a hj hold he
      · exact h.named a (List.mem_of_getElem? hold) b (List.mem_of_getElem? hold') he
  · have hmap : (s.creds.map Creds.pid)[i]? = some c'.pid := by rw [List.getElem?_map, hi, hpid]; rfl
    have hsame : (s.creds.set i c').map Creds.pid = s.creds.map Creds.pid := by
      obtain ⟨hlt, hget⟩ := List.getElem?_eq_some_iff.1 hmap
      rw [List.map_set, ← hget, List.set_getElem_self]
    rw [hsame]
    exact h.pids

/-- No other process has the number of a process. -/
theorem Inv.pid_ne {j : ℕ} {d : Creds} (h : s.Inv) (hi : s.creds[i]? = some c)
    (hj : s.creds[j]? = some d) (hne : j ≠ i) : c.pid ≠ d.pid := by
  intro he
  have hi' : (s.creds.map Creds.pid)[i]? = some c.pid := by rw [List.getElem?_map, hi]; rfl
  have hj' : (s.creds.map Creds.pid)[j]? = some c.pid := by rw [List.getElem?_map, hj, he]; rfl
  obtain ⟨hlt, -⟩ := List.getElem?_eq_some_iff.1 hj'
  exact hne ((List.getElem?_inj hlt h.pids).1 (hj'.trans hi'.symm))

theorem Inv.fork (h : s.Inv) (hapart : s.Apart (.fork me)) (hs : s.fork me = some (r, t)) : t.Inv := by
  obtain ⟨old, hold, he⟩ := Option.map_eq_some_iff.1 hs
  cases he
  have hmem := List.mem_of_getElem? hold
  refine ⟨⟨fun a ha b hb he => ?_, fun a ha he => ?_⟩, fun a ha b hb he => ?_, ?_⟩
  · obtain ha | ha := List.mem_append.1 ha <;> obtain hb | hb := List.mem_append.1 hb
    · exact h.session a ha b hb he
    · obtain rfl := List.mem_singleton.1 hb
      exact h.session a ha old hmem he
    · obtain rfl := List.mem_singleton.1 ha
      exact h.session old hmem b hb he
    · obtain rfl := List.mem_singleton.1 ha
      obtain rfl := List.mem_singleton.1 hb
      rfl
  · obtain ha | ha := List.mem_append.1 ha
    · exact h.leader a ha he
    · obtain rfl := List.mem_singleton.1 ha
      exact absurd he (hapart old hmem).2.2
  · obtain ha | ha := List.mem_append.1 ha <;> obtain hb | hb := List.mem_append.1 hb
    · exact h.named a ha b hb he
    · obtain rfl := List.mem_singleton.1 hb
      exact h.named a ha old hmem he
    · obtain rfl := List.mem_singleton.1 ha
      exact absurd he (hapart b hb).2.1
    · obtain rfl := List.mem_singleton.1 ha
      obtain rfl := List.mem_singleton.1 hb
      rfl
  · simp only [List.map_append, List.map_cons, List.map_nil]
    refine List.nodup_append.2 ⟨h.pids, List.nodup_singleton _, fun a ha b hb he => ?_⟩
    obtain ⟨d, hd, rfl⟩ := List.mem_map.1 ha
    exact (hapart d hd).1 (he.trans (List.mem_singleton.1 hb))

theorem Inv.setsid (h : s.Inv) (hapart : s.Apart (.setsid me)) (hs : s.setsid me = some (r, t)) :
    t.Inv := by
  obtain ⟨c, hc, he⟩ := Option.map_eq_some_iff.1 hs
  split_ifs at he with hleads
  · cases he
    exact h
  · cases he
    have hnone : ∀ (j : ℕ) (d : Creds), s.creds[j]? = some d → d.pgid ≠ c.pid :=
      fun j d hd => hapart c hc hleads d (List.mem_of_getElem? hd)
    refine h.set hc rfl (fun _ => rfl) (fun j d _ hd he => ?_) (fun j d _ hd he => ?_)
      fun j d hj hd he => ?_
    · exact absurd he (hnone j d hd)
    · exact absurd he (hnone j d hd)
    · exact absurd he (h.pid_ne hc hd hj)

theorem scan_cases {ring : List ℕ} {p : Creds → Bool} (h : s.scan me ring p = some (i, c)) :
    s.creds[i]? = some c ∧ p c = true := by
  obtain ⟨j, -, hj⟩ := List.exists_of_findSome?_eq_some h
  obtain ⟨d, hd, he⟩ := Option.map_eq_some_iff.1 hj
  cases he
  exact Option.filter_eq_some_iff.1 hd

/-- The target joins a group of its own session, or the one with its number. -/
theorem Inv.join {pgid : Int32} (h : s.Inv) (hi : s.creds[i]? = some c) (hleads : c.sid ≠ c.pid)
    (hgroup : pgid = c.pid ∨ ∃ ex ∈ s.creds, ex.pgid = pgid ∧ ex.sid = c.sid) :
    ({ s with creds := s.creds.set i { c with pgid } } : Processes).Inv := by
  have hmem := List.mem_of_getElem? hi
  refine h.set hi rfl (fun he => absurd he hleads) (fun j d _ hd he => ?_) (fun j d _ hd he => ?_)
    fun j d hj hd he => ?_
  · obtain rfl | ⟨ex, hex, rfl, hsid⟩ := hgroup
    · exact h.named c hmem d (List.mem_of_getElem? hd) he
    · exact (h.session d (List.mem_of_getElem? hd) ex hex he).trans hsid
  · exact h.named c hmem d (List.mem_of_getElem? hd) he
  · obtain rfl | ⟨ex, hex, rfl, hsid⟩ := hgroup
    · exact absurd he (h.pid_ne hi hd hj)
    · exact hsid.symm.trans (h.named d (List.mem_of_getElem? hd) ex hex he)

theorem Inv.setTarget {ring : List ℕ} {pgid : Int32} (h : s.Inv) (hi : s.creds[i]? = some c) :
    (s.setTarget me ring pgid i c).2.Inv := by
  unfold Processes.setTarget
  by_cases hleads : c.sid = c.pid
  · rw [if_pos hleads]
    exact h
  · rw [if_neg hleads]
    dsimp only
    generalize (if pgid = 0 then c.pid else pgid) = group
    by_cases hown : group = c.pid
    · rw [if_neg (not_not.2 hown)]
      exact h.join hi hleads (.inl hown)
    · rw [if_pos hown]
      split
      · exact h
      · next ex hex =>
        obtain ⟨hj, hp⟩ := scan_cases hex
        split_ifs with hsid
        · exact h
        · exact h.join hi hleads
            (.inr ⟨ex, List.mem_of_getElem? hj, of_decide_eq_true hp, not_not.1 hsid⟩)

theorem Inv.setpgid {ring : List ℕ} {pid pgid : Int32} (h : s.Inv)
    (hs : s.setpgid me ring pid pgid = some (r, t)) : t.Inv := by
  unfold Processes.setpgid at hs
  split at hs
  · cases hs
  · next c hc =>
    obtain ⟨-, hs⟩ := Option.ite_none_right_eq_some.1 hs
    split at hs
    · cases hs
      exact h
    · next i target htarget =>
      have hi : s.creds[i]? = some target := by
        split_ifs at htarget
        · cases htarget
          exact hc
        · exact (scan_cases htarget).1
      split_ifs at hs
      · cases hs
        exact h
      · have hset : (s.setTarget me ring pgid i target).2.Inv := h.setTarget hi
        rw [Option.some.inj hs] at hset
        exact hset

theorem Inv.exit (h : s.Inv) (hs : s.exit me = some (r, t)) : t.Inv := by
  obtain ⟨c, hc, he⟩ := Option.map_eq_some_iff.1 hs
  cases he
  have hids : ∀ d, (if d.ppid = c.pid then { d with ppid := 1 } else d : Creds).pid = d.pid ∧
      (if d.ppid = c.pid then { d with ppid := 1 } else d : Creds).sid = d.sid ∧
      (if d.ppid = c.pid then { d with ppid := 1 } else d : Creds).pgid = d.pgid := by
    intro d
    split_ifs <;> exact ⟨rfl, rfl, rfl⟩
  have hold : ∀ d ∈ s.creds.eraseIdx me, d ∈ s.creds := fun d hd =>
    (List.eraseIdx_sublist ..).subset hd
  refine ⟨⟨fun a ha b hb he => ?_, fun a ha he => ?_⟩, fun a ha b hb he => ?_, ?_⟩
  · obtain ⟨a, hmem, rfl⟩ := List.mem_map.1 ha
    obtain ⟨b, hmem', rfl⟩ := List.mem_map.1 hb
    simp only [hids] at he ⊢
    exact h.session a (hold a hmem) b (hold b hmem') he
  · obtain ⟨a, hmem, rfl⟩ := List.mem_map.1 ha
    simp only [hids] at he ⊢
    exact h.leader a (hold a hmem) he
  · obtain ⟨a, hmem, rfl⟩ := List.mem_map.1 ha
    obtain ⟨b, hmem', rfl⟩ := List.mem_map.1 hb
    simp only [hids] at he ⊢
    exact h.named a (hold a hmem) b (hold b hmem') he
  · have hpids : Creds.pid ∘ (fun d => if d.ppid = c.pid then { d with ppid := 1 } else d) = Creds.pid :=
      funext fun d => (hids d).1
    rw [List.map_map, hpids]
    exact h.pids.sublist ((List.eraseIdx_sublist ..).map _)

theorem Inv.step {op : ProcessOp} (h : s.Inv) (hapart : s.Apart op) (hs : s.step op = some (r, t)) :
    t.Inv := by
  cases op with
  | fork me => exact h.fork hapart hs
  | newThread me =>
    obtain ⟨c, -, he⟩ := Option.map_eq_some_iff.1 hs
    cases he
    exact ⟨⟨h.session, h.leader⟩, h.named, h.pids⟩
  | setsid me => exact h.setsid hapart hs
  | setpgid me ring pid pgid => exact h.setpgid hs
  | exit me => exact h.exit hs

theorem setTarget_fails {ring : List ℕ} {pgid errno : Int32}
    (hs : s.setTarget me ring pgid i c = (.fails errno, t)) : t = s := by
  unfold Processes.setTarget at hs
  by_cases hleads : c.sid = c.pid
  · rw [if_pos hleads] at hs
    cases hs
    rfl
  · rw [if_neg hleads] at hs
    dsimp only at hs
    generalize (if pgid = 0 then c.pid else pgid) = group at hs
    by_cases hown : group = c.pid
    · rw [if_neg (not_not.2 hown)] at hs
      cases hs
    · rw [if_pos hown] at hs
      split at hs
      · cases hs
        rfl
      · split at hs <;> cases hs
        rfl

/-- A call that fails leaves the processes as they are. -/
theorem eq_of_fails {op : ProcessOp} {errno : Int32} (hs : s.step op = some (.fails errno, t)) : t = s := by
  cases op with
  | fork me =>
    obtain ⟨c, -, he⟩ := Option.map_eq_some_iff.1 hs
    cases he
  | newThread me =>
    obtain ⟨c, -, he⟩ := Option.map_eq_some_iff.1 hs
    cases he
  | setsid me =>
    obtain ⟨c, -, he⟩ := Option.map_eq_some_iff.1 hs
    split_ifs at he <;> cases he
    rfl
  | setpgid me ring pid pgid =>
    change s.setpgid me ring pid pgid = some (.fails errno, t) at hs
    unfold Processes.setpgid at hs
    split at hs
    · cases hs
    · obtain ⟨-, hs⟩ := Option.ite_none_right_eq_some.1 hs
      split at hs
      · cases hs
        rfl
      · split at hs
        · cases hs
          rfl
        · exact setTarget_fails (Option.some.inj hs)
  | exit me =>
    obtain ⟨c, -, he⟩ := Option.map_eq_some_iff.1 hs
    cases he

end Processes

theorem inv_of_run {s : Processes} (h : processes.ReachesBy Processes.Apart s) : s.Inv := by
  refine h.invariant (fun s hs => ?_) fun s op t hinv hapart ⟨r, hs⟩ => hinv.step hapart hs
  have hcreds : s.creds = [⟨1, 1, 1, 1⟩] := hs
  refine ⟨⟨?_, ?_⟩, ?_, ?_⟩ <;> rw [hcreds] <;> decide

/-- If a child never gets a number that is in use, and a process makes a session of its own only while
no process is in the group with its number, then every group keeps to one session. -/
theorem grouped_of_run {s : Processes} (h : processes.ReachesBy Processes.Apart s) :
    s.Grouped ∧ ∀ op errno t, s.step op = some (.fails errno, t) → t = s :=
  ⟨(inv_of_run h).toGrouped, fun _ _ _ hs => Processes.eq_of_fails hs⟩

/-- A shell puts a child into a group of its own, and the child starts a session later. -/
theorem grouped_of_jobs : ∃ s : Processes,
    s.creds = [⟨1, 1, 1, 1⟩, ⟨2, 1, 1, 2⟩, ⟨3, 2, 3, 3⟩] ∧ s.Grouped ∧
      ∀ op errno t, s.step op = some (.fails errno, t) → t = s := by
  have hrun : (System.execBy Processes.Apart (fun s op => (Processes.step s op).map Prod.snd)
      ⟨[⟨1, 1, 1, 1⟩], 2⟩ [.fork 0, .setpgid 0 [1] 2 2, .fork 1, .setsid 2]).any
        (fun s => s.creds = [⟨1, 1, 1, 1⟩, ⟨2, 1, 1, 2⟩, ⟨3, 2, 3, 3⟩]) = true := by decide
  obtain ⟨s, hs, hcreds⟩ := (Option.any_eq_true ..).1 hrun
  have hinit : processes.init ⟨[⟨1, 1, 1, 1⟩], 2⟩ := rfl
  have hreach := System.ReachesBy.execBy (fun _ _ _ => processes_step) (.init hinit) hs
  exact ⟨s, of_decide_eq_true hcreds, grouped_of_run hreach⟩

/-- A process leaves its group for another one and makes a session, while its child is still in the
group. -/
theorem session_splits_group : ∃ s, processes.Reachable s ∧ ¬s.Grouped := by
  have hrun : (System.execBy (fun _ _ => True) (fun s op => (Processes.step s op).map Prod.snd)
      ⟨[⟨1, 1, 1, 1⟩], 2⟩ [.fork 0, .setpgid 1 [0] 0 0, .fork 1, .setpgid 1 [0, 2] 0 1, .setsid 1]).any
        (fun s => s.creds = [⟨1, 1, 1, 1⟩, ⟨2, 1, 2, 2⟩, ⟨3, 2, 1, 2⟩]) = true := by decide
  obtain ⟨s, hs, hcreds⟩ := (Option.any_eq_true ..).1 hrun
  have hinit : processes.init ⟨[⟨1, 1, 1, 1⟩], 2⟩ := rfl
  refine ⟨s, System.ReachesBy.execBy (fun _ _ _ => processes_step) (.init hinit) hs, fun hgrouped => ?_⟩
  have hsession := hgrouped.session
  rw [of_decide_eq_true hcreds] at hsession
  exact absurd (hsession ⟨2, 1, 2, 2⟩ (by decide) ⟨3, 2, 1, 2⟩ (by decide) rfl) (by decide)

end Glidix.Thread.ProcessGroups
