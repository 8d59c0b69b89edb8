import Mathlib.Data.List.Basic
import Glidix.Lib.Runs

/-!
# Executable permissions

Threads hold the permissions `oxperm`, and may give files what is in their `dxperm`; a thread that
executes a file gets its permissions.  `vfsInodeChangeXPerm` stores all three fields of the file, also
those for which `XP_NCHG` is passed, and `XP_NCHG` is the set of all permissions.
-/

namespace Glidix.XPerm

/-! ## Permission sets -/

abbrev Perms := BitVec 64

def XP_CHXPERM : Perms := 1 <<< 4
def XP_NCHG : Perms := 0xFFFFFFFFFFFFFFFF

/-- All bits of `x` are in `D`. -/
def Perms.Within (x D : Perms) : Prop := D &&& x = x

instance (x D : Perms) : Decidable (Perms.Within x D) := inferInstanceAs (Decidable (_ = _))

section Within

variable {x y D : Perms}

theorem Perms.Within.trans (h : Perms.Within x y) (h' : Perms.Within y D) : Perms.Within x D := by
  have hx : y &&& x = x := h
  have hy : D &&& y = y := h'
  show D &&& x = x
  rw [← hx, ← BitVec.and_assoc, hy]

theorem Perms.Within.or (hx : Perms.Within x D) (hy : Perms.Within y D) : Perms.Within (x ||| y) D := by
  have hx : D &&& x = x := hx
  have hy : D &&& y = y := hy
  show D &&& (x ||| y) = x ||| y
  rw [BitVec.and_or_distrib_left, hx, hy]

theorem Perms.Within.and (hx : Perms.Within x D) : Perms.Within (x &&& y) D := by
  have hx : D &&& x = x := hx
  show D &&& (x &&& y) = x &&& y
  rw [← BitVec.and_assoc, hx]

end Within

/-! ## Threads and files -/

structure Thread where
  pid : ℕ
  oxperm : Perms
  dxperm : Perms
  deriving DecidableEq

/-- An inode; `setuid` says whether `VFS_MODE_SETUID` is set and the file system allows it. -/
structure Inode where
  ixperm : Perms
  oxperm : Perms
  dxperm : Perms
  uid : ℕ
  setuid : Bool
  deriving DecidableEq

/-- The threads of all processes, the effective user of each process, and the inodes. -/
structure XState where
  threads : List Thread
  euid : ℕ → ℕ
  inodes : List Inode

namespace XState

variable (s : XState)

/-- `havePerm`, for a thread with credentials; the answer is an `int`. -/
def havePerm (thread : Thread) (xperm : Perms) : Bool :=
  s.euid thread.pid = 0 ∨ (thread.oxperm &&& xperm).setWidth 32 ≠ 0

/-- A field of an inode may be set to `perm` by a thread. -/
def allowed (thread : Thread) (perm : Perms) : Bool :=
  perm = XP_NCHG ∨ thread.dxperm &&& perm = perm

/-- `vfsInodeChangeXPerm` does not fail with `EACCES`. -/
def changeAllowed (thread : Thread) (ixperm oxperm dxperm : Perms) : Bool :=
  s.havePerm thread XP_CHXPERM && allowed thread ixperm && allowed thread oxperm &&
    allowed thread dxperm

/-- `vfsInodeChangeXPerm`, called by the thread `t` for the inode `i`. -/
def vfsInodeChangeXPerm (t i : ℕ) (ixperm oxperm dxperm : Perms) : Option XState := do
  let thread ← s.threads[t]?
  let inode ← s.inodes[i]?
  if s.changeAllowed thread ixperm oxperm dxperm then
    some { s with inodes := s.inodes.set i { inode with ixperm, oxperm, dxperm } }
  else some s

/-- `threadClone`: a new thread of the process, or of a new one with the same user. -/
def threadClone (t : ℕ) (newPid : Option ℕ) : Option XState := do
  let thread ← s.threads[t]?
  some (match newPid with
    | none => { s with threads := s.threads ++ [thread] }
    | some pid =>
      { s with
        threads := s.threads ++ [{ thread with pid }]
        euid := Function.update s.euid pid (s.euid thread.pid) })

/-- The permissions of a thread that executes a file. -/
def execPerms (thread : Thread) (inode : Inode) : Thread :=
  { thread with
    oxperm := (thread.oxperm &&& (thread.dxperm &&& inode.ixperm)) ||| inode.oxperm
    dxperm := inode.dxperm }

/-- `elfExec` when it succeeds; for a script, `i` is its interpreter. -/
def elfExec (t i : ℕ) : Option XState := do
  let thread ← s.threads[t]?
  let inode ← s.inodes[i]?
  some
    { s with
      threads := s.threads.set t (execPerms thread inode)
      euid := if inode.setuid then Function.update s.euid thread.pid inode.uid else s.euid }

end XState

inductive Op where
  | change (t i : ℕ) (ixperm oxperm dxperm : Perms)
  | clone (t : ℕ) (newPid : Option ℕ)
  | exec (t i : ℕ)
  deriving DecidableEq

def XState.step (s : XState) : Op → Option XState
  | .change t i ixperm oxperm dxperm => s.vfsInodeChangeXPerm t i ixperm oxperm dxperm
  | .clone t newPid => s.threadClone t newPid
  | .exec t i => s.elfExec t i

/-! ## Confinement -/

/-- No thread holds a permission outside `D` or may give one away, nor does a file. -/
structure XState.Confined (D : Perms) (s : XState) : Prop where
  threads : ∀ x ∈ s.threads, Perms.Within x.oxperm D ∧ Perms.Within x.dxperm D
  inodes : ∀ f ∈ s.inodes, Perms.Within f.oxperm D ∧ Perms.Within f.dxperm D

/-- The processes do not run as root, and all permissions are in `D`. -/
structure XState.Starts (D : Perms) (s : XState) : Prop extends s.Confined D where
  euid : ∀ x ∈ s.threads, s.euid x.pid ≠ 0
  ixperm : ∀ f ∈ s.inodes, Perms.Within f.ixperm D

def xpermSystem (D : Perms) : System XState Op where
  init := XState.Starts D
  step s op s' := s.step op = some s'

/-- A field for which `XP_NCHG` is passed keeps its value. -/
def Keeps (arg old new : Perms) : Prop := arg = XP_NCHG → new = old

/-- The fields of the inode that the operation is not to change stay as they are. -/
def XState.FieldsKept (s : XState) (op : Op) (s' : XState) : Prop :=
  match op with
  | .change _ i ixperm oxperm dxperm => ∀ f ∈ s.inodes[i]?, ∀ f' ∈ s'.inodes[i]?,
      Keeps ixperm f.ixperm f'.ixperm ∧ Keeps oxperm f.oxperm f'.oxperm ∧
        Keeps dxperm f.dxperm f'.dxperm
  | _ => True

/-- A call that is permitted passes `XP_NCHG` only for fields that are `XP_NCHG` already. -/
def XState.Explicit (s : XState) : Op → Prop
  | .change t i ixperm oxperm dxperm => ∀ thread ∈ s.threads[t]?, ∀ f ∈ s.inodes[i]?,
      s.changeAllowed thread ixperm oxperm dxperm = true →
        Keeps ixperm f.ixperm ixperm ∧ Keeps oxperm f.oxperm oxperm ∧ Keeps dxperm f.dxperm dxperm
  | _ => True

instance (s : XState) : DecidablePred s.Explicit
  | .change t i ixperm oxperm dxperm => inferInstanceAs (Decidable (∀ thread ∈ s.threads[t]?,
      ∀ f ∈ s.inodes[i]?, s.changeAllowed thread ixperm oxperm dxperm = true →
        (ixperm = XP_NCHG → ixperm = f.ixperm) ∧ (oxperm = XP_NCHG → oxperm = f.oxperm) ∧
          (dxperm = XP_NCHG → dxperm = f.dxperm)))
  | .clone .. | .exec .. => inferInstanceAs (Decidable True)

section Confinement

variable {D : Perms} {s s' : XState} {t i : ℕ} {ixperm oxperm dxperm : Perms}

/-- What a call of `vfsInodeChangeXPerm` does. -/
theorem change_cases (h : s.vfsInodeChangeXPerm t i ixperm oxperm dxperm = some s') :
    ∃ thread f, s.threads[t]? = some thread ∧ s.inodes[i]? = some f ∧
      (s.changeAllowed thread ixperm oxperm dxperm = true ∧
          s' = { s with inodes := s.inodes.set i { f with ixperm, oxperm, dxperm } } ∨
        s.changeAllowed thread ixperm oxperm dxperm = false ∧ s' = s) := by
  obtain ⟨thread, hthread, h⟩ := Option.bind_eq_some_iff.1 h
  obtain ⟨f, hf, h⟩ := Option.bind_eq_some_iff.1 h
  refine ⟨thread, f, hthread, hf, ?_⟩
  by_cases hallowed : s.changeAllowed thread ixperm oxperm dxperm = true
  · rw [if_pos hallowed] at h
    exact Or.inl ⟨hallowed, (Option.some.inj h).symm⟩
  · rw [if_neg hallowed] at h
    exact Or.inr ⟨Bool.eq_false_iff.2 hallowed, (Option.some.inj h).symm⟩

/-- A field that a thread may set, or that keeps its value, stays in `D`. -/
theorem within_of_allowed {thread : Thread} {perm old : Perms} (h : XState.allowed thread perm = true)
    (hkeeps : Keeps perm old perm) (hthread : Perms.Within thread.dxperm D)
    (hold : Perms.Within old D) : Perms.Within perm D := by
  rcases of_decide_eq_true h with hnchg | hwithin
  · rw [hkeeps hnchg]
    exact hold
  · exact Perms.Within.trans hwithin hthread

theorem XState.Confined.change (h : s.Confined D)
    (hexp : s.Explicit (.change t i ixperm oxperm dxperm))
    (hs : s.vfsInodeChangeXPerm t i ixperm oxperm dxperm = some s') : s'.Confined D := by
  obtain ⟨thread, f, hthread, hf, ⟨hallowed, rfl⟩ | ⟨-, rfl⟩⟩ := change_cases hs
  · obtain ⟨-, hox, hdx⟩ := hexp thread hthread f hf hallowed
    have hd := (h.threads thread (List.mem_of_getElem? hthread)).2
    have hfile := h.inodes f (List.mem_of_getElem? hf)
    simp only [XState.changeAllowed, Bool.and_eq_true] at hallowed
    refine ⟨h.threads, ?_⟩
    intro g hg
    rcases List.mem_or_eq_of_mem_set hg with hg | rfl
    · exact h.inodes g hg
    · exact ⟨within_of_allowed hallowed.1.2 hox hd hfile.1, within_of_allowed hallowed.2 hdx hd hfile.2⟩
  · exact h

theorem XState.Confined.clone {newPid : Option ℕ} (h : s.Confined D)
    (hs : s.threadClone t newPid = some s') : s'.Confined D := by
  obtain ⟨thread, hthread, hs⟩ := Option.bind_eq_some_iff.1 hs
  have hold := h.threads thread (List.mem_of_getElem? hthread)
  cases newPid with
  | none =>
    obtain rfl := Option.some.inj hs
    refine ⟨?_, h.inodes⟩
    intro x hx
    rcases List.mem_append.1 hx with hx | hx
    · exact h.threads x hx
    · rwa [List.mem_singleton.1 hx]
  | some pid =>
    obtain rfl := Option.some.inj hs
    refine ⟨?_, h.inodes⟩
    intro x hx
    rcases List.mem_append.1 hx with hx | hx
    · exact h.threads x hx
    · rwa [List.mem_singleton.1 hx]

theorem XState.Confined.exec (h : s.Confined D) (hs : s.elfExec t i = some s') : s'.Confined D := by
  obtain ⟨thread, hthread, hs⟩ := Option.bind_eq_some_iff.1 hs
  obtain ⟨f, hf, hs⟩ := Option.bind_eq_some_iff.1 hs
  obtain rfl := Option.some.inj hs
  have hold := h.threads thread (List.mem_of_getElem? hthread)
  have hfile := h.inodes f (List.mem_of_getElem? hf)
  refine ⟨?_, h.inodes⟩
  intro x hx
  rcases List.mem_or_eq_of_mem_set hx with hx | rfl
  · exact h.threads x hx
  · exact ⟨Perms.Within.or (Perms.Within.and hold.1) hfile.1, hfile.2⟩

theorem XState.Confined.step {op : Op} (h : s.Confined D) (hexp : s.Explicit op)
    (hs : s.step op = some s') : s'.Confined D := by
  cases op with
  | change t i ixperm oxperm dxperm => exact h.change hexp hs
  | clone t newPid => exact h.clone hs
  | exec t i => exact h.exec hs

/-- A step keeps the fields that it is not to change if and only if it meets the condition. -/
theorem fieldsKept_iff {op : Op} (hs : s.step op = some s') : s.FieldsKept op s' ↔ s.Explicit op := by
  cases op with
  | change t i ixperm oxperm dxperm =>
    obtain ⟨thread, f, hthread, hf, ⟨hallowed, rfl⟩ | ⟨hdenied, rfl⟩⟩ := change_cases hs
    · have hnew : (s.inodes.set i { f with ixperm, oxperm, dxperm })[i]? =
          some { f with ixperm, oxperm, dxperm } := by
        rw [List.getElem?_set_self (List.getElem?_eq_some_iff.1 hf).1]
      simp only [XState.FieldsKept, XState.Explicit, hf, hthread, hnew, Option.mem_some_iff,
        forall_eq', hallowed, forall_const]
    · simp only [XState.FieldsKept, XState.Explicit, hf, hthread, Option.mem_some_iff, forall_eq',
        hdenied, Bool.false_eq_true, false_implies, iff_true]
      exact ⟨fun _ => rfl, fun _ => rfl, fun _ => rfl⟩
  | clone t newPid => exact Iff.rfl
  | exec t i => exact Iff.rfl

/-- If permitted calls pass `XP_NCHG` only for fields that are `XP_NCHG` already, then no permission
outside `D` is ever held or may be given away, and fields that are not to change keep their values. -/
theorem perms_confined (h : (xpermSystem D).ReachesBy XState.Explicit s) : s.Confined D ∧
    ∀ op s', s.Explicit op → s.step op = some s' → s'.Confined D ∧ s.FieldsKept op s' := by
  have hs : s.Confined D := by
    apply h.invariant
    · intro s hinit
      exact hinit.toConfined
    · intro s op s' hconf hexp hstep
      exact hconf.step hexp hstep
  refine ⟨hs, ?_⟩
  intro op s' hexp hstep
  exact ⟨hs.step hexp hstep, (fieldsKept_iff hstep).2 hexp⟩

end Confinement

/-! ## Some runs -/

section Runs

/-- One thread and one file, all of whose permissions are `XP_CHXPERM`. -/
def oneFile : XState where
  threads := [⟨2, XP_CHXPERM, XP_CHXPERM⟩]
  euid := fun _ => 1000
  inodes := [⟨XP_CHXPERM, XP_CHXPERM, XP_CHXPERM, 0, false⟩]

theorem oneFile_starts : oneFile.Starts XP_CHXPERM where
  threads x hx := by
    rw [List.mem_singleton.1 hx]
    decide
  inodes f hf := by
    rw [List.mem_singleton.1 hf]
    decide
  euid x hx := show (1000 : ℕ) ≠ 0 by decide
  ixperm f hf := by
    rw [List.mem_singleton.1 hf]
    decide

/-- The file is given one permission to hold and none to give away, and is executed. -/
theorem perms_confined_exec : ∃ s : XState, s.Confined XP_CHXPERM ∧
    s.threads = [⟨2, XP_CHXPERM, 0⟩] := by
  have hrun : (System.execBy XState.Explicit XState.step oneFile
      [.change 0 0 0 XP_CHXPERM 0, .exec 0 0]).any
        (fun s => s.threads = [⟨2, XP_CHXPERM, 0⟩]) = true := by
    decide
  obtain ⟨s, hs, hend⟩ := (Option.any_eq_true ..).1 hrun
  exact ⟨s, (perms_confined (System.ReachesBy.execBy (fun _ _ _ h => h) (.init oneFile_starts) hs)).1,
    of_decide_eq_true hend⟩

/-- `oxperm` of the file is not to change, and the thread that executes it gets all permissions. -/
theorem perms_not_confined : ∃ s : XState, (xpermSystem XP_CHXPERM).Reachable s ∧
    ¬ s.Confined XP_CHXPERM ∧ s.threads = [⟨2, XP_NCHG, XP_CHXPERM⟩] := by
  have hrun : (System.execBy (fun _ _ => True) XState.step oneFile
      [.change 0 0 XP_CHXPERM XP_NCHG XP_CHXPERM, .exec 0 0]).any
        (fun s => s.threads = [⟨2, XP_NCHG, XP_CHXPERM⟩]) = true := by
    decide
  obtain ⟨s, hs, hend⟩ := (Option.any_eq_true ..).1 hrun
  have hthreads : s.threads = [⟨2, XP_NCHG, XP_CHXPERM⟩] := of_decide_eq_true hend
  refine ⟨s, System.ReachesBy.execBy (fun _ _ _ h => h) (.init oneFile_starts) hs, ?_, hthreads⟩
  intro hconf
  have hout := (hconf.threads ⟨2, XP_NCHG, XP_CHXPERM⟩ (hthreads ▸ List.mem_singleton_self _)).1
  exact absurd hout (by decide)

end Runs

end Glidix.XPerm
